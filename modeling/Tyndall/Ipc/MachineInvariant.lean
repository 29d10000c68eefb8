import Tyndall.Ipc.Machine
import Tyndall.Ipc.Topics

/-!
# What every step of a machine keeps

Whatever the processes do, an object is only ever mapped by buffers of the name it
was created under. No call of `init` fails, and a buffer that is inside `write` or
`read` maps an object of the full size, with its type's hash and format.
-/

namespace Tyndall.Ipc.Machines

open Runs SeqLock

variable {H : Type} {kind : Name → StorageType} [DecidableEq H]

/-- Everything a step can do, one constructor for each choice. -/
inductive Effect (machine : Machine H kind) : Event H kind → Machine H kind → Prop where
  | created (name : Name) (h : H) (unopened : (machine.handle name h).buf = none)
      (ready : (machine.handle name h).writer = .idle) :
      Effect machine (.created name h) ((machine.openName name).2.put name h
        { machine.handle name h with buf := some (machine.openName name).1 })
  | inited (name : Name) (h : H) (object : Nat) (block : Block) (attach : Attach)
      (mapped : (machine.handle name h).mapped = some object)
      (taken : advanceInit (kind name) (machine.shm.object object) (machine.handle name h).attach =
        some (block, attach)) :
      Effect machine (.inited name h)
        (machine.act name h object block { machine.handle name h with attach := attach })
  | called (name : Name) (h : H) (object : Nat) (entry : Entry UInt8 (kind name).size)
      (mapped : (machine.handle name h).mapped = some object)
      (attached : (machine.handle name h).attach = .attached)
      (ready : (machine.handle name h).writer = .idle) :
      Effect machine (.acted name h object (.called entry))
        (machine.put name h { machine.handle name h with writer := .beginning entry })
  | stored (name : Name) (h : H) (object : Nat) (event : SeqLock.Event H UInt8 (kind name).size)
      (block : Block) (writer : Writer UInt8 (kind name).size)
      (mapped : (machine.handle name h).mapped = some object)
      (taken : advanceStores (kind name) (machine.shm.object object) (machine.handle name h).writer =
        some (event, block, writer)) :
      Effect machine (.acted name h object event)
        (machine.act name h object block { machine.handle name h with writer := writer })
  | readCalled (name : Name) (h : H) (object : Nat) (copy : Entry UInt8 (kind name).size)
      (mapped : (machine.handle name h).mapped = some object)
      (attached : (machine.handle name h).attach = .attached)
      (ready : (machine.handle name h).reader.phase = .idle) :
      Effect machine (.acted name h object (.readCalled h))
        (machine.put name h { machine.handle name h with
          reader := { (machine.handle name h).reader with phase := .spinning copy } })
  | looked (name : Name) (h : H) (object : Nat) (event : SeqLock.Event H UInt8 (kind name).size)
      (reader : Reader UInt8 (kind name).size)
      (mapped : (machine.handle name h).mapped = some object)
      (taken : advanceReader (sharedOf (kind name) (machine.shm.object object)) h
        (machine.handle name h).reader = some (event, reader)) :
      Effect machine (.acted name h object event)
        (machine.put name h { machine.handle name h with reader := reader })
  | died (name : Name) (h : H) (object : Nat)
      (mapped : (machine.handle name h).mapped = some object)
      (inside : (machine.handle name h).writer.inside = true) :
      Effect machine (.acted name h object .died)
        (machine.put name h { machine.handle name h with writer := .dead })
  | vanished (name : Name) (h : H) (ready : (machine.handle name h).writer = .idle) :
      Effect machine (.vanished name h)
        (machine.put name h { machine.handle name h with writer := .dead })
  | unlinked (name : Name) :
      Effect machine (.unlinked name) { machine with shm := shmemUnlink machine.shm name }
  | peeked (name : Name) : Effect machine (.peeked name) (machine.openName name).2

/-- Every step has one of these effects. -/
theorem machine_effect {machine next : Machine H kind} {event : Event H kind}
    (taken : Steps Machine.perform machine event next) : Effect machine event next := by
  obtain ⟨action, performed⟩ := taken
  cases action with
  | create name h =>
    simp only [Machine.perform] at performed
    split at performed
    · next unopened ready =>
      simp only [Option.some.injEq, Prod.mk.injEq] at performed
      obtain ⟨rfl, rfl⟩ := performed
      exact .created name h unopened ready
    · cases performed
  | init name h =>
    simp only [Machine.perform, Option.bind_eq_bind, Option.bind_eq_some_iff, Option.pure_def,
      Option.some.injEq, Prod.exists, Prod.mk.injEq] at performed
    obtain ⟨object, mapped, block, attach, taken, rfl, rfl⟩ := performed
    exact .inited name h object block attach mapped taken
  | write name h entry =>
    simp only [Machine.perform, Option.bind_eq_bind, Option.bind_eq_some_iff] at performed
    obtain ⟨object, mapped, performed⟩ := performed
    split at performed
    · next attached ready =>
      simp only [Option.some.injEq, Prod.mk.injEq] at performed
      obtain ⟨rfl, rfl⟩ := performed
      exact .called name h object entry mapped attached ready
    · cases performed
  | writer name h =>
    simp only [Machine.perform, Option.bind_eq_bind, Option.bind_eq_some_iff, Option.pure_def,
      Option.some.injEq, Prod.exists, Prod.mk.injEq] at performed
    obtain ⟨object, mapped, event, block, writer, taken, rfl, rfl⟩ := performed
    exact .stored name h object event block writer mapped taken
  | read name h copy =>
    simp only [Machine.perform, Option.bind_eq_bind, Option.bind_eq_some_iff] at performed
    obtain ⟨object, mapped, performed⟩ := performed
    split at performed
    · next attached ready =>
      simp only [Option.some.injEq, Prod.mk.injEq] at performed
      obtain ⟨rfl, rfl⟩ := performed
      exact .readCalled name h object copy mapped attached ready
    · cases performed
  | reader name h =>
    simp only [Machine.perform, Option.bind_eq_bind, Option.bind_eq_some_iff, Option.pure_def,
      Option.some.injEq, Prod.exists, Prod.mk.injEq] at performed
    obtain ⟨object, mapped, event, reader, taken, rfl, rfl⟩ := performed
    exact .looked name h object event reader mapped taken
  | vanish name h =>
    cases stands : (machine.handle name h).writer with
    | dead => simp [Machine.perform, stands] at performed
    | idle =>
      simp only [Machine.perform, stands, Option.some.injEq, Prod.mk.injEq] at performed
      obtain ⟨rfl, rfl⟩ := performed
      exact .vanished name h stands
    | beginning | raising | storing =>
      simp only [Machine.perform, stands, Option.bind_eq_bind, Option.bind_eq_some_iff,
        Option.pure_def, Option.some.injEq, Prod.mk.injEq] at performed
      obtain ⟨object, mapped, rfl, rfl⟩ := performed
      exact .died name h object (by simpa [Handle.mapped, stands] using mapped)
        (by simp [stands, Writer.inside])
  | unlink name =>
    simp only [Machine.perform, Option.some.injEq, Prod.mk.injEq] at performed
    obtain ⟨rfl, rfl⟩ := performed
    exact .unlinked name
  | peek name =>
    simp only [Machine.perform, Option.some.injEq, Prod.mk.injEq] at performed
    obtain ⟨rfl, rfl⟩ := performed
    exact .peeked name

section Views

variable (machine : Machine H kind) (name : Name) (h : H) (object : Nat) (block : Block)
  (handle : Handle (kind name))

@[simp] theorem put_handle : (machine.put name h handle).handle name h = handle := by
  simp [Machine.put]

@[simp] theorem put_shm : (machine.put name h handle).shm = machine.shm := rfl

@[simp] theorem put_origin : (machine.put name h handle).origin = machine.origin := rfl

@[simp] theorem act_handles :
    (machine.act name h object block handle).handle = (machine.put name h handle).handle := rfl

@[simp] theorem act_origin : (machine.act name h object block handle).origin = machine.origin := rfl

/-- Other buffers stay. -/
theorem put_handle_other (other : Name) (later : H) (different : ¬ (other = name ∧ later = h)) :
    (machine.put name h handle).handle other later = machine.handle other later :=
  update_pair_of_ne machine.handle name other h later handle different

/-- Other buffers of the name stay. -/
theorem put_handle_same (later : H) (different : later ≠ h) :
    (machine.put name h handle).handle name later = machine.handle name later :=
  put_handle_other machine name h handle name later (fun both => different both.2)

/-- Replacing a buffer alone is a step that leaves its object. -/
theorem put_eq_act :
    machine.put name h handle = machine.act name h object (machine.shm.object object) handle := by
  rw [Machine.act, Shm.modify_same]
  rfl

@[simp] theorem act_object : (machine.act name h object block handle).shm.object object = block := by
  simp [Machine.act]

theorem act_object_other (other : Nat) (different : other ≠ object) :
    (machine.act name h object block handle).shm.object other = machine.shm.object other := by
  simp [Machine.act, Shm.modify, different]

omit [DecidableEq H] in
@[simp] theorem openName_handle : (machine.openName name).2.handle = machine.handle := by
  rw [Machine.openName]
  split <;> rfl

end Views

/-- A buffer that is there has opened its object. -/
theorem mapped_buf {type : StorageType} {handle : Handle type} {object : Nat}
    (mapped : handle.mapped = some object) : handle.buf = some object := by
  rw [Handle.mapped] at mapped
  split at mapped
  · cases mapped
  · exact mapped

section Names

variable (machine : Machine H kind)

omit [DecidableEq H] in
/-- Opening a name leads to its object, or creates one. -/
theorem openName_cases (name : Name) :
    (∃ object, machine.shm.find name = some object ∧
      machine.openName name = (object, machine)) ∨
    machine.shm.find name = none ∧ machine.openName name = (machine.shm.next,
      { machine with
        shm := {
          directory := (name, machine.shm.next) :: machine.shm.directory,
          object := Function.update machine.shm.object machine.shm.next Block.empty,
          next := machine.shm.next + 1 },
        origin := Function.update machine.origin machine.shm.next (some name) }) := by
  cases found : machine.shm.find name with
  | some object => exact .inl ⟨object, rfl, by simp [Machine.openName, found]⟩
  | none => exact .inr ⟨rfl, by simp [Machine.openName, shmOpen, found]⟩

/-- An unlinked name leads nowhere, and the others lead where they led. -/
theorem find_unlinked (shm : Shm) (name other : Name) :
    (shmemUnlink shm name).find other = if other = name then none else shm.find other := by
  rw [shmemUnlink, Shm.find, Shm.find]
  induction shm.directory with
  | nil => split <;> rfl
  | cons entry rest inductionHypothesis =>
    by_cases removed : entry.1 = name
    · rw [List.filter_cons_of_neg (by simpa using removed), inductionHypothesis]
      split
      · rfl
      · next elsewhere =>
        have apart : (other == entry.1) = false := by simpa [removed] using elsewhere
        rw [List.lookup_cons, apart]
    · rw [List.filter_cons_of_pos (by simpa using removed), List.lookup_cons, List.lookup_cons,
        inductionHypothesis]
      by_cases here : other = entry.1
      · simp only [here, removed, beq_self_eq_true, if_false]
      · rw [beq_false_of_ne here]

end Names

/-- Buffers and names lead to objects that were created under their names, objects
of a name are made for its type, every call of `init` has established what it
should, and nobody reads or writes through a buffer that is not ready. -/
structure Kept (machine : Machine H kind) : Prop where
  mapped : ∀ {name h object}, (machine.handle name h).buf = some object →
    machine.origin object = some name
  listed : ∀ {name object}, machine.shm.find name = some object →
    machine.origin object = some name
  fresh : ∀ {object}, machine.shm.next ≤ object → machine.origin object = none
  empty : ∀ {object}, machine.origin object = none → machine.shm.object object = Block.empty
  tailored : ∀ {name object}, machine.origin object = some name →
    Tailored (kind name) (machine.shm.object object)
  reached : ∀ {name h object}, (machine.handle name h).buf = some object →
    Reached (kind name) (machine.shm.object object) (machine.handle name h).attach
  unopened : ∀ {name h}, (machine.handle name h).buf = none →
    (machine.handle name h).attach = .idle
  waiting : ∀ {name h}, (machine.handle name h).attach ≠ .attached →
    (machine.handle name h).writer.inside = false ∧ (machine.handle name h).reader = {}

omit [DecidableEq H] in
/-- An empty object is made for any type. -/
theorem tailored_empty (type : StorageType) : Tailored type Block.empty :=
  ⟨.inl rfl, .inl (Block.load32_zero _ _ (fun _ _ => rfl))⟩

omit [DecidableEq H] in
/-- A fresh machine. -/
theorem kept_initial : Kept ({} : Machine H kind) where
  mapped opened := by cases opened
  listed found := by cases found
  fresh _ := rfl
  empty _ := rfl
  tailored made := by cases made
  reached opened := by cases opened
  unopened _ := rfl
  waiting _ := ⟨rfl, rfl⟩

section Creation

variable {machine : Machine H kind} (kept : Kept machine)

include kept

omit [DecidableEq H] in
/-- The next object is empty already, so creating it changes no contents. -/
theorem Kept.create_object (object : Nat) :
    Function.update machine.shm.object machine.shm.next Block.empty object =
      machine.shm.object object := by
  by_cases new : object = machine.shm.next
  · rw [new, Function.update_self, kept.empty (kept.fresh (Nat.le_refl _))]
  · rw [Function.update_of_ne new]

omit [DecidableEq H] in
/-- Objects keep the name they were created under. -/
theorem Kept.create_origin (name : Name) {object : Nat} {other : Name}
    (made : machine.origin object = some other) :
    Function.update machine.origin machine.shm.next (some name) object = some other := by
  have old : object ≠ machine.shm.next := by
    rintro rfl
    rw [kept.fresh (Nat.le_refl _)] at made
    cases made
  rwa [Function.update_of_ne old]

omit [DecidableEq H] in
/-- Creating an object under a name that leads nowhere. -/
theorem Kept.create (name : Name) :
    Kept { machine with
      shm := {
        directory := (name, machine.shm.next) :: machine.shm.directory,
        object := Function.update machine.shm.object machine.shm.next Block.empty,
        next := machine.shm.next + 1 },
      origin := Function.update machine.origin machine.shm.next (some name) } := by
  constructor
  case mapped => exact fun opened => kept.create_origin name (kept.mapped opened)
  case listed =>
    intro other object found
    rw [Shm.find, List.lookup_cons] at found
    by_cases here : other = name
    · obtain rfl : machine.shm.next = object := by simpa [here] using found
      rw [here]
      exact Function.update_self _ _ _
    · have apart : (other == name) = false := by simpa using here
      rw [apart] at found
      exact kept.create_origin name (kept.listed found)
  case fresh =>
    intro object behind
    have later : machine.shm.next < object := behind
    exact (Function.update_of_ne (Nat.ne_of_gt later) _ _).trans (kept.fresh (Nat.le_of_lt later))
  case empty =>
    intro object unmade
    refine (kept.create_object object).trans (kept.empty ?_)
    cases made : machine.origin object with
    | none => rfl
    | some other => cases (kept.create_origin name made).symm.trans unmade
  case tailored =>
    intro other object made
    refine Eq.mpr (congrArg (Tailored (kind other)) (kept.create_object object)) ?_
    by_cases new : object = machine.shm.next
    · rw [new, kept.empty (kept.fresh (Nat.le_refl _))]
      exact tailored_empty _
    · exact kept.tailored ((Function.update_of_ne new _ _).symm.trans made)
  case reached =>
    intro other h object opened
    refine Eq.mpr (congrArg (fun block => Reached (kind other) block _)
      (kept.create_object object)) ?_
    exact kept.reached opened
  case unopened => exact kept.unopened
  case waiting => exact kept.waiting

omit [DecidableEq H] in
/-- Opening a name keeps this, and leads to an object of the name. -/
theorem Kept.openName (name : Name) :
    Kept (machine.openName name).2 ∧
      (machine.openName name).2.origin (machine.openName name).1 = some name ∧
      (∀ object, (machine.openName name).2.shm.object object = machine.shm.object object) ∧
      ∀ object other, machine.origin object = some other →
        (machine.openName name).2.origin object = some other := by
  rcases openName_cases machine name with ⟨object, found, opened⟩ | ⟨_, opened⟩
  · rw [opened]
    exact ⟨kept, kept.listed found, fun _ => rfl, fun _ _ made => made⟩
  · rw [opened]
    exact ⟨kept.create name, Function.update_self _ _ _, kept.create_object,
      fun _ _ => kept.create_origin name⟩

end Creation

/-- A step of a buffer on its object keeps this if it keeps what others have
established, and goes on as far as its place says. -/
theorem Kept.act {machine : Machine H kind} (kept : Kept machine) {name : Name} {h : H}
    {object : Nat} {block : Block} {handle : Handle (kind name)}
    (opened : (machine.handle name h).buf = some object) (same : handle.buf = some object)
    (tailored : Tailored (kind name) block) (reached : Reached (kind name) block handle.attach)
    (others : ∀ attach, Reached (kind name) (machine.shm.object object) attach →
      Reached (kind name) block attach)
    (waiting : handle.attach ≠ .attached → handle.writer.inside = false ∧ handle.reader = {}) :
    Kept (machine.act name h object block handle) := by
  have made := kept.mapped opened
  have buffers : ∀ {other later},
      ((machine.act name h object block handle).handle other later).buf =
        (machine.handle other later).buf := by
    intro other later
    by_cases here : other = name ∧ later = h
    · obtain ⟨rfl, rfl⟩ := here
      rw [act_handles, put_handle, same, opened]
    · rw [act_handles, put_handle_other _ _ _ _ _ _ here]
  constructor
  case mapped =>
    intro other later found opened
    rw [buffers] at opened
    exact kept.mapped opened
  case listed => exact kept.listed
  case fresh => exact kept.fresh
  case empty =>
    intro other unmade
    have elsewhere : other ≠ object := by
      rintro rfl
      rw [act_origin, made] at unmade
      cases unmade
    rw [act_object_other _ _ _ _ _ _ _ elsewhere]
    exact kept.empty unmade
  case tailored =>
    intro other found madeToo
    by_cases here : found = object
    · subst here
      obtain rfl : name = other := Option.some.inj (made.symm.trans madeToo)
      rwa [act_object]
    · rw [act_object_other _ _ _ _ _ _ _ here]
      exact kept.tailored madeToo
  case reached =>
    intro other later found openedToo
    by_cases actor : other = name ∧ later = h
    · obtain ⟨rfl, rfl⟩ := actor
      rw [act_handles, put_handle] at openedToo ⊢
      obtain rfl : object = found := Option.some.inj (same.symm.trans openedToo)
      rwa [act_object]
    · rw [act_handles, put_handle_other _ _ _ _ _ _ actor] at openedToo ⊢
      by_cases here : found = object
      · subst here
        obtain rfl : name = other := Option.some.inj (made.symm.trans (kept.mapped openedToo))
        rw [act_object]
        exact others _ (kept.reached openedToo)
      · rw [act_object_other _ _ _ _ _ _ _ here]
        exact kept.reached openedToo
  case unopened =>
    intro other later closed
    rw [buffers] at closed
    have elsewhere : ¬ (other = name ∧ later = h) := by
      rintro ⟨rfl, rfl⟩
      rw [opened] at closed
      cases closed
    rw [act_handles, put_handle_other _ _ _ _ _ _ elsewhere]
    exact kept.unopened closed
  case waiting =>
    intro other later
    by_cases actor : other = name ∧ later = h
    · obtain ⟨rfl, rfl⟩ := actor
      rw [act_handles, put_handle]
      exact waiting
    · rw [act_handles, put_handle_other _ _ _ _ _ _ actor]
      exact kept.waiting

/-- A step of a buffer that leaves its object and has it go no further in `init`. -/
theorem Kept.put {machine : Machine H kind} (kept : Kept machine) {name : Name} {h : H}
    {handle : Handle (kind name)} (buf : handle.buf = (machine.handle name h).buf)
    (attach : handle.attach = (machine.handle name h).attach)
    (waiting : handle.attach ≠ .attached → handle.writer.inside = false ∧ handle.reader = {}) :
    Kept (machine.put name h handle) := by
  have same : ∀ {other later},
      ((machine.put name h handle).handle other later).buf = (machine.handle other later).buf ∧
        ((machine.put name h handle).handle other later).attach =
          (machine.handle other later).attach := by
    intro other later
    by_cases here : other = name ∧ later = h
    · obtain ⟨rfl, rfl⟩ := here
      rw [put_handle]
      exact ⟨buf, attach⟩
    · rw [put_handle_other _ _ _ _ _ _ here]
      exact ⟨rfl, rfl⟩
  refine ⟨?_, kept.listed, kept.fresh, kept.empty, kept.tailored, ?_, ?_, ?_⟩
  · intro other later object opened
    rw [same.1] at opened
    exact kept.mapped opened
  · intro other later object opened
    rw [same.1] at opened
    rw [same.2]
    exact kept.reached opened
  · intro other later closed
    rw [same.1] at closed
    rw [same.2]
    exact kept.unopened closed
  · intro other later
    by_cases here : other = name ∧ later = h
    · obtain ⟨rfl, rfl⟩ := here
      rw [put_handle]
      exact waiting
    · rw [put_handle_other _ _ _ _ _ _ here]
      exact kept.waiting

omit [DecidableEq H] in
/-- Whoever is inside `write` or `read` is ready, and its object is established. -/
theorem Kept.busy {machine : Machine H kind} (kept : Kept machine) {name : Name} {h : H}
    {object : Nat} (mapped : (machine.handle name h).mapped = some object)
    (inside : (machine.handle name h).writer.inside = true ∨
      (machine.handle name h).reader.phase ≠ .idle) :
    (machine.handle name h).attach = .attached ∧
      Established (kind name) (machine.shm.object object) := by
  have attached : (machine.handle name h).attach = .attached := by
    by_contra waits
    obtain ⟨outside, fresh⟩ := kept.waiting waits
    rcases inside with writing | reading
    · rw [outside] at writing
      cases writing
    · rw [fresh] at reading
      exact reading rfl
  have reached := kept.reached (mapped_buf mapped)
  rw [attached] at reached
  exact ⟨attached, reached⟩

omit [DecidableEq H] in
/-- A writer that takes a step is inside `write`. -/
theorem advanceStores_inside {type : StorageType} {block next : Block}
    {writer after : Writer UInt8 type.size} {event : SeqLock.Event H UInt8 type.size}
    (taken : advanceStores type block writer = some (event, next, after)) :
    writer.inside = true := by
  cases writer with
  | dead => simp [advanceStores] at taken
  | idle => simp [advanceStores] at taken
  | beginning | raising | storing => rfl

omit [DecidableEq H] in
/-- A reader that takes a step is inside `read`. -/
theorem advanceReader_inside {type : StorageType} {lock : Shared UInt8 type.size} {h : H}
    {reader after : Reader UInt8 type.size} {event : SeqLock.Event H UInt8 type.size}
    (taken : advanceReader lock h reader = some (event, after)) : reader.phase ≠ .idle := by
  intro idle
  simp [advanceReader, idle] at taken

/-- One step keeps all of this. -/
theorem kept_step {machine next : Machine H kind} {event : Event H kind} (kept : Kept machine)
    (effect : Effect machine event next) : Kept next := by
  cases effect with
  | created name h unopened ready =>
    obtain ⟨opened, made, blocks, -⟩ := kept.openName name
    have attach := kept.unopened unopened
    constructor
    case mapped =>
      intro other later object mapped
      by_cases here : other = name ∧ later = h
      · obtain ⟨rfl, rfl⟩ := here
        rw [put_handle] at mapped
        obtain rfl := Option.some.inj mapped
        exact made
      · rw [put_handle_other _ _ _ _ _ _ here] at mapped
        exact opened.mapped mapped
    case listed => exact opened.listed
    case fresh => exact opened.fresh
    case empty => exact opened.empty
    case tailored => exact opened.tailored
    case reached =>
      intro other later object mapped
      by_cases here : other = name ∧ later = h
      · obtain ⟨rfl, rfl⟩ := here
        simp only [put_handle, attach, Reached]
      · rw [put_handle_other _ _ _ _ _ _ here] at mapped ⊢
        exact opened.reached mapped
    case unopened =>
      intro other later closed
      by_cases here : other = name ∧ later = h
      · obtain ⟨rfl, rfl⟩ := here
        rw [put_handle]
        exact attach
      · rw [put_handle_other _ _ _ _ _ _ here] at closed ⊢
        exact opened.unopened closed
    case waiting =>
      intro other later waits
      by_cases here : other = name ∧ later = h
      · obtain ⟨rfl, rfl⟩ := here
        rw [put_handle] at waits ⊢
        exact kept.waiting waits
      · rw [put_handle_other _ _ _ _ _ _ here] at waits ⊢
        exact opened.waiting waits
  | inited name h object block attach mapped taken =>
    have opened := mapped_buf mapped
    obtain ⟨tailored, reached, -, others⟩ :=
      advanceInit_tailored (kept.tailored (kept.mapped opened)) (kept.reached opened) taken
    have before : (machine.handle name h).attach ≠ .attached := by
      intro attached
      simp [attached, advanceInit] at taken
    exact kept.act opened opened tailored reached others (fun _ => kept.waiting before)
  | called name h object entry mapped attached ready =>
    exact kept.put rfl rfl (fun waits => absurd attached waits)
  | stored name h object event block writer mapped taken =>
    obtain ⟨attached, established⟩ := kept.busy mapped (.inl (advanceStores_inside taken))
    have opened := mapped_buf mapped
    obtain ⟨-, size, tailer⟩ := advanceStores_spec established.size _ taken
    obtain ⟨tailored, others⟩ := tailer_congr size tailer
    exact kept.act opened opened (tailored (kept.tailored (kept.mapped opened)))
      (others _ (kept.reached opened)) others (fun waits => absurd attached waits)
  | readCalled name h object copy mapped attached ready =>
    exact kept.put rfl rfl (fun waits => absurd attached waits)
  | looked name h object event reader mapped taken =>
    obtain ⟨attached, -⟩ := kept.busy mapped (.inr (advanceReader_inside taken))
    exact kept.put rfl rfl (fun waits => absurd attached waits)
  | died name h object mapped inside =>
    exact kept.put rfl rfl (fun waits => ⟨rfl, (kept.waiting waits).2⟩)
  | vanished name h ready => exact kept.put rfl rfl (fun waits => ⟨rfl, (kept.waiting waits).2⟩)
  | unlinked name =>
    refine ⟨kept.mapped, ?_, kept.fresh, kept.empty, kept.tailored, kept.reached, kept.unopened,
      kept.waiting⟩
    intro other object found
    rw [find_unlinked] at found
    split at found
    · cases found
    · exact kept.listed found
  | peeked name => exact (kept.openName name).1

/-- The invariant holds throughout every run, disciplined or not. -/
theorem run_kept {events : List (Event H kind)} {final : Machine H kind}
    (run : Run (Steps Machine.perform) {} events final) : Kept final :=
  run.invariant (fun log _ => log) () (fun _ machine => Kept machine) kept_initial
    (fun _ _ _ _ kept taken => kept_step kept (machine_effect taken))

/-- Validation never fails among users that agree on the type of each name. In every
run, with names unlinked and opened again, buffers that vanish halfway through `init`
or `write` and writers that ignore each other: no call of `init` fails its assertion,
buffers that map one object were constructed with one name, and a buffer that is ready
maps an object of the full size which holds its type's hash and whole format.

Proof: sizing an object of the type leaves its bytes, every character is stored with
the value that others store, and the exchange installs the hash that all of them
compare with. -/
theorem init_never_fails (events : List (Event H kind)) (final : Machine H kind)
    (run : Run (Steps Machine.perform) {} events final) (name : Name) (h : H) :
    (final.handle name h).attach ≠ .failed ∧
      ∀ object, (final.handle name h).buf = some object →
        (∀ other later, (final.handle other later).buf = some object → other = name) ∧
        ((final.handle name h).attach = .attached →
          Established (kind name) (final.shm.object object)) := by
  have kept := run_kept run
  constructor
  · intro failed
    cases opened : (final.handle name h).buf with
    | none =>
      rw [kept.unopened opened] at failed
      cases failed
    | some object =>
      have reached := kept.reached opened
      rw [failed] at reached
      exact reached
  · intro object opened
    constructor
    · intro other later openedToo
      exact Option.some.inj ((kept.mapped openedToo).symm.trans (kept.mapped opened))
    · intro attached
      have reached := kept.reached opened
      rw [attached] at reached
      exact reached

/-- Two buffers take turns in `init`: both have sized the object and stored the format
before either exchanges its hash. -/
def takingTurns : List (Action (Bool) (fun _ => oneInt)) :=
  [.create [97] false, .create [97] true, .init [97] false, .init [97] true, .init [97] true,
    .init [97] false, .init [97] true, .init [97] false, .init [97] false]

/-- Both become ready. -/
theorem init_never_fails_turns :
    ∃ (events : List (Event (Bool) (fun _ => oneInt))) (final : Machine (Bool) (fun _ => oneInt)),
    Run (Steps Machine.perform) {} events final ∧ (final.handle [97] false).attach = .attached ∧
    (final.handle [97] false).attach ≠ .failed ∧
    ∀ object, (final.handle [97] false).buf = some object →
      (∀ other later, (final.handle other later).buf = some object → other = [97]) ∧
      ((final.handle [97] false).attach = .attached →
        Established oneInt (final.shm.object object)) := by
  have ready : (execute Machine.perform ({} : Machine (Bool) (fun _ => oneInt)) takingTurns).map
      (fun result => (result.2.handle [97] false).attach) = some .attached := by decide +kernel
  obtain ⟨⟨events, final⟩, reached, attached⟩ := Option.map_eq_some_iff.mp ready
  have run := execute_run _ _ _ _ _ reached
  exact ⟨events, final, run, attached, init_never_fails events final run [97] false⟩

end Tyndall.Ipc.Machines
