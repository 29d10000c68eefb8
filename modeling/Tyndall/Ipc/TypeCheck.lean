import Tyndall.Foundation.Runs
import Tyndall.Ipc.Shmem

/-!
# Type validation under interleaving

Any number of `init` calls on one topic run side by side, each for a storage type
of its own. A call opens and sizes the object, stores its debug format one
character at a time, tries to exchange its hash for zero, and where that fails
compares the hash that is there with its own. Calls that passed may store any
bytes at any time where `write` stores: in the sequence number and in the entry.

The hash stands behind the lock, so its place depends on the type's size. Calls
whose locks have one size look at one place, and the first hash installed there
stays. A larger lock looks past everything the smaller one wrote.
-/

namespace Tyndall.Ipc

open Runs

variable {Call : Type}

/-- Where a call of `init` stands. While storing, the characters below `next`
have been stored. -/
inductive Attach where
  | idle
  | storing (next : Nat)
  | checking
  | attached
  | failed
deriving DecidableEq

/-- One topic's object and the calls on it. -/
structure Topic (Call : Type) where
  object : Block
  call : Call → Attach

/-- A topic that nobody has opened: the object is created empty by the first call. -/
def Topic.unopened : Topic Call := { object := Block.empty, call := fun _ => .idle }

/-- Move one call on, with the object as it leaves it. -/
def Topic.update [DecidableEq Call] (topic : Topic Call) (call : Call) (object : Block)
    (attach : Attach) : Topic Call :=
  { object := object, call := Function.update topic.call call attach }

/-- A scheduling choice: a call takes its next step, or stores one byte of a write. -/
inductive Choice (Call : Type) where
  | init (call : Call)
  | write (call : Call) (offset : Nat) (value : UInt8)

/-- The next atomic step of a call of `shmem_buf::init`. -/
def advanceInit (type : StorageType) (object : Block) : Attach → Option (Block × Attach)
  | .idle => some (object.resize type.objectSize, .storing 0)
  | .storing next =>
      if next < type.format.length then
        some (object.set (type.sizeofLock + 4 + next) (type.format.getD next 0), .storing (next + 1))
      else
        let (rc, object) := smpCmpXch object type.sizeofLock 0 type.hash
        some (object, if rc = -1 then .checking else .attached)
  | .checking =>
      some (object, if object.load32 type.sizeofLock = type.hash then .attached else .failed)
  | .attached => none
  | .failed => none

/-- Where `write` stores: the sequence number and the entry. -/
def StorageType.Writable (type : StorageType) (offset : Nat) : Prop :=
  offset < 4 ∨ type.entryOffset ≤ offset ∧ offset < type.entryOffset + type.size

instance (type : StorageType) (offset : Nat) : Decidable (type.Writable offset) :=
  inferInstanceAs (Decidable (_ ∨ _ ∧ _))

variable [DecidableEq Call] (type : Call → StorageType)

@[simp] theorem Topic.update_object (topic : Topic Call) (call : Call) (object : Block)
    (attach : Attach) : (topic.update call object attach).object = object := rfl

@[simp] theorem Topic.update_call (topic : Topic Call) (call : Call) (object : Block)
    (attach : Attach) : (topic.update call object attach).call call = attach := by
  simp [Topic.update]

@[simp] theorem Topic.update_update (topic : Topic Call) (call : Call) (first second : Block)
    (before after : Attach) :
    (topic.update call first before).update call second after = topic.update call second after := by
  simp [Topic.update]

/-- Execute a choice. A call that is not in `init`, and a store by a call that has
not passed or outside what `write` stores, are not possible. -/
def advance (topic : Topic Call) : Choice Call → Option (Choice Call × Topic Call)
  | .init call => do
      let (object, attach) ← advanceInit (type call) topic.object (topic.call call)
      pure (.init call, topic.update call object attach)
  | .write call offset value =>
      if topic.call call = .attached ∧ (type call).Writable offset then
        some (.write call offset value, { topic with object := topic.object.set offset value })
      else none

/-- What holds while all locks have one size: the object has room for the hash
behind the lock once it is opened, and every call that passed finds its hash there. -/
structure Validated (lockSize : Nat) (topic : Topic Call) : Prop where
  room : ∀ call, topic.call call ≠ .idle → lockSize + 4 ≤ topic.object.size
  matching : ∀ call, topic.call call = .attached →
    topic.object.load32 lockSize = (type call).hash

/-- The hash of a topic depends on the four bytes behind the lock. -/
theorem Validated.keep {lockSize : Nat} {topic : Topic Call} (validated : Validated type lockSize topic)
    (call : Call) (object : Block) (attach : Attach) (room : lockSize + 4 ≤ object.size)
    (same : lockSize + 4 ≤ topic.object.size →
      ∀ k < 4, object.byte (lockSize + k) = topic.object.byte (lockSize + k))
    (passed : attach = .attached → object.load32 lockSize = (type call).hash) :
    Validated type lockSize (topic.update call object attach) := by
  constructor
  · exact fun _ _ => room
  · intro other attached
    by_cases moved : other = call
    · subst moved
      exact passed (by simpa [Topic.update] using attached)
    · have before : topic.call other = .attached := by
        simpa [Topic.update, moved] using attached
      have opened := validated.room other (by simp [before])
      rw [← validated.matching other before]
      exact Block.load32_congr _ _ _ (same opened)

/-- Where there is no hash yet no call has passed, so one may be installed. -/
theorem Validated.install (nonzero : ∀ call, (type call).hash ≠ 0) {lockSize : Nat}
    {topic : Topic Call} (validated : Validated type lockSize topic) (call : Call)
    (room : lockSize + 4 ≤ topic.object.size) (vacant : topic.object.load32 lockSize = 0) :
    Validated type lockSize
      (topic.update call (topic.object.store32 lockSize (type call).hash) .attached) := by
  constructor
  · intro _ _
    rwa [Topic.update, Block.store32_size]
  · intro other attached
    by_cases moved : other = call
    · subst moved
      exact Block.load32_store32 _ _ _ room
    · have before : topic.call other = .attached := by
        simpa [Topic.update, moved] using attached
      have installed := validated.matching other before
      rw [vacant] at installed
      exact absurd installed.symm (nonzero other)

/-- One step of a call preserves it. Only the exchange stores a hash. -/
theorem init_validated (nonzero : ∀ call, (type call).hash ≠ 0) {lockSize : Nat}
    (equal : ∀ call, (type call).sizeofLock = lockSize) (topic : Topic Call)
    (validated : Validated type lockSize topic) (call : Call) (object : Block) (attach : Attach)
    (taken : advanceInit (type call) topic.object (topic.call call) = some (object, attach)) :
    Validated type lockSize (topic.update call object attach) := by
  have size := equal call
  have inside := tailer_inside (type call)
  cases stands : topic.call call with
  | idle =>
    simp only [stands, advanceInit, Option.some.injEq, Prod.mk.injEq] at taken
    obtain ⟨rfl, rfl⟩ := taken
    refine validated.keep type call _ _ ?_ ?_ (by simp)
    · rw [Block.resize_size]
      omega
    · intro _ k below
      rw [Block.resize_byte, if_pos (by omega)]
  | storing next =>
    have room := validated.room call (by simp [stands])
    simp only [stands, advanceInit] at taken
    split at taken
    · simp only [Option.some.injEq, Prod.mk.injEq] at taken
      obtain ⟨rfl, rfl⟩ := taken
      refine validated.keep type call _ _ room ?_ (by simp)
      intro _ k below
      rw [Block.set_byte, if_neg (by omega)]
    · by_cases vacant : topic.object.load32 (type call).sizeofLock = 0
      · simp only [smpCmpXch, vacant, ↓reduceIte, Option.some.injEq, Prod.mk.injEq] at taken
        obtain ⟨rfl, rfl⟩ := taken
        rw [size] at vacant ⊢
        exact validated.install type nonzero call room vacant
      · simp only [smpCmpXch, vacant, ↓reduceIte, Option.some.injEq, Prod.mk.injEq] at taken
        obtain ⟨rfl, rfl⟩ := taken
        exact validated.keep type call _ _ room (fun _ _ _ => rfl) (by simp)
  | checking =>
    have room := validated.room call (by simp [stands])
    simp only [stands, advanceInit, Option.some.injEq, Prod.mk.injEq] at taken
    obtain ⟨rfl, rfl⟩ := taken
    apply validated.keep type call _ _ room (fun _ _ _ => rfl)
    intro passed
    by_contra different
    rw [size, if_neg different] at passed
    cases passed
  | attached => simp [stands, advanceInit] at taken
  | failed => simp [stands, advanceInit] at taken

omit [DecidableEq Call] in
/-- A store of a write stays in front of the hash. -/
theorem write_validated {lockSize : Nat} (equal : ∀ call, (type call).sizeofLock = lockSize)
    (topic : Topic Call) (validated : Validated type lockSize topic) (call : Call) (offset : Nat)
    (value : UInt8) (writable : (type call).Writable offset) :
    Validated type lockSize { topic with object := topic.object.set offset value } := by
  have inside := (type call).entry_inside
  have number := (type call).four_le_entryOffset
  rw [equal call] at inside
  have before : offset < lockSize := by
    rcases writable with inNumber | inEntry <;> omega
  constructor
  · exact validated.room
  · intro other attached
    rw [← validated.matching other attached]
    apply Block.load32_congr
    intro k _
    rw [Block.set_byte, if_neg (by omega)]

/-- Equal sizes keep the invariant over whole runs. -/
theorem run_validated (nonzero : ∀ call, (type call).hash ≠ 0) {lockSize : Nat}
    (equal : ∀ call, (type call).sizeofLock = lockSize) (events : List (Choice Call))
    (final : Topic Call) (run : Run (Steps (advance type)) Topic.unopened events final) :
    Validated type lockSize final := by
  refine run.invariant (fun log _ => log) () (fun _ topic => Validated type lockSize topic) ?_ ?_
  · constructor <;> intro call stands <;> simp [Topic.unopened] at stands
  · rintro _ topic event next validated ⟨choice, taken⟩
    cases choice with
    | init call =>
      simp only [advance, Option.bind_eq_bind, Option.bind_eq_some_iff, Option.pure_def,
        Option.some.injEq, Prod.exists, Prod.mk.injEq] at taken
      obtain ⟨object, attach, taken, rfl, rfl⟩ := taken
      exact init_validated type nonzero equal topic validated call object attach taken
    | write call offset value =>
      simp only [advance, Option.ite_none_right_eq_some, Option.some.injEq, Prod.mk.injEq] at taken
      obtain ⟨⟨_, writable⟩, rfl, rfl⟩ := taken
      exact write_validated type equal topic validated call offset value writable

section Alone

variable (topic : Topic Call) (call : Call)

/-- A step of `init` is a step of the topic. -/
theorem init_step (object : Block) (attach : Attach)
    (taken : advanceInit (type call) topic.object (topic.call call) = some (object, attach)) :
    Steps (advance type) topic (.init call) (topic.update call object attach) :=
  ⟨.init call, by simp [advance, taken]⟩

/-- A call that runs alone stores its format. -/
theorem format_alone (count : Nat) (inside : count ≤ (type call).format.length) :
    ∃ events, Run (Steps (advance type)) (topic.update call topic.object (.storing 0)) events
      (topic.update call
        (topic.object.setAll ((type call).sizeofLock + 4) ((type call).format.take count))
        (.storing count)) := by
  induction count with
  | zero => exact ⟨[], .refl⟩
  | succ count inductionHypothesis =>
    obtain ⟨events, run⟩ := inductionHypothesis (by omega)
    refine ⟨_, run.snoc _ (.init call) _ _ ?_⟩
    have next : (type call).format.take (count + 1) =
        (type call).format.take count ++ [(type call).format.getD count 0] := by
      rw [List.take_add_one, List.getElem?_eq_getElem (by omega), List.getD_eq_getElem _ _ (by omega)]
      rfl
    have stored := init_step type (topic.update call
        (topic.object.setAll ((type call).sizeofLock + 4) ((type call).format.take count))
        (.storing count)) call _ _ (by
      rw [Topic.update_call, advanceInit, if_pos (by omega)])
    rw [Topic.update_update, Topic.update_object] at stored
    rw [next, Block.setAll_append, List.length_take, Nat.min_eq_left (by omega)]
    exact stored

/-- A call that runs alone does what `init` does to the object, and passes if
its assertion does. -/
theorem init_alone (unopened : topic.call call = .idle) :
    ∃ events, Run (Steps (advance type)) topic events
      (topic.update call (initObject (type call) topic.object).2
        (if (initObject (type call) topic.object).1 then .attached else .failed)) := by
  have created := init_step type topic call _ _ (by rw [unopened, advanceInit])
  obtain ⟨events, stored⟩ := format_alone type
    (topic.update call (topic.object.resize (type call).objectSize) (.storing 0)) call
    (type call).format.length (Nat.le_refl _)
  rw [Topic.update_update, Topic.update_update, Topic.update_object, List.take_length] at stored
  have started := (Run.single created).append stored
  change Run _ _ _ (topic.update call (formatted (type call) topic.object) _) at started
  let reached := topic.update call (formatted (type call) topic.object)
    (.storing (type call).format.length)
  by_cases vacant : (formatted (type call) topic.object).load32 (type call).sizeofLock = 0
  · have exchanged := init_step type reached call _ _ (by
      rw [Topic.update_call, Topic.update_object, advanceInit, if_neg (Nat.lt_irrefl _), smpCmpXch,
        if_pos vacant])
    rw [Topic.update_update] at exchanged
    rw [initObject_vacant _ _ vacant]
    exact ⟨_, started.snoc _ _ _ _ exchanged⟩
  · have refused := init_step type reached call _ _ (by
      rw [Topic.update_call, Topic.update_object, advanceInit, if_neg (Nat.lt_irrefl _), smpCmpXch,
        if_neg vacant])
    rw [Topic.update_update] at refused
    have compared := init_step type
      (topic.update call (formatted (type call) topic.object) .checking) call _ _ (by
      rw [Topic.update_call, Topic.update_object, advanceInit])
    rw [Topic.update_update] at compared
    rw [initObject_taken _ _ vacant]
    simp only [beq_iff_eq]
    exact ⟨_, (started.snoc _ _ _ _ refused).snoc _ _ _ _ compared⟩

end Alone

/-- A type with a larger lock passes on a topic that a type with a smaller lock
has established: its hash lies past the end of the other's object. -/
theorem larger_passes (smaller larger : Call)
    (less : (type smaller).sizeofLock < (type larger).sizeofLock) :
    ∃ events final, Run (Steps (advance type)) Topic.unopened events final ∧
      final.call smaller = .attached ∧ final.call larger = .attached := by
  have different : smaller ≠ larger := by
    rintro rfl
    exact Nat.lt_irrefl _ less
  obtain ⟨passed, established, -⟩ := initObject_empty (type smaller)
  obtain ⟨events, first⟩ := init_alone type Topic.unopened smaller rfl
  rw [show (Topic.unopened : Topic Call).object = Block.empty from rfl, passed, if_pos rfl] at first
  have past := (type smaller).objectSize_le_of_lt (type larger) less
  obtain ⟨passedToo, -, -⟩ := initObject_installs (type larger)
    (initObject (type smaller) Block.empty).2 (by
      intro k _
      rw [Block.resize_byte, Block.beyond _ _ (by rw [established.size]; omega), ite_self])
  obtain ⟨later, second⟩ := init_alone type
    (Topic.unopened.update smaller (initObject (type smaller) Block.empty).2 .attached) larger
    (by simp [Topic.update, Topic.unopened, different.symm])
  rw [Topic.update_object, passedToo, if_pos rfl] at second
  refine ⟨_, _, first.append second, ?_, Topic.update_call _ _ _ _⟩
  simp [Topic.update, different]

/-- In every run all calls that passed are for one type if and only if the locks
of all types in play have one size.

Proof: with one size the first hash stays and every later check meets it. With
two sizes the smaller type's call alone, followed by the larger type's, both pass. -/
theorem type_check_iff (nonzero : ∀ call, (type call).hash ≠ 0)
    (distinct : ∀ call other, (type call).hash = (type other).hash → type call = type other) :
    (∀ events final, Run (Steps (advance type)) Topic.unopened events final →
        ∀ call other, final.call call = .attached → final.call other = .attached →
          type call = type other) ↔
      ∀ call other, (type call).sizeofLock = (type other).sizeofLock := by
  constructor
  · intro checked
    have ordered : ∀ call other, ¬ (type call).sizeofLock < (type other).sizeofLock := by
      intro call other less
      obtain ⟨events, final, run, passed, passedToo⟩ := larger_passes type call other less
      rw [checked events final run call other passed passedToo] at less
      exact Nat.lt_irrefl _ less
    intro call other
    exact Nat.le_antisymm (Nat.le_of_not_lt (ordered other call))
      (Nat.le_of_not_lt (ordered call other))
  · intro equal events final run call other passed passedToo
    have validated := run_validated type nonzero (fun each => equal each call) events final run
    apply distinct
    rw [← validated.matching call passed, ← validated.matching other passedToo]

/-- Two calls for an `int` and one for a `float`: the locks have one size, and never do
both types pass. -/
theorem type_check_int_float : oneInt.sizeofLock = oneFloat.sizeofLock ∧
    ∀ events final, Run (Steps (advance ![oneInt, oneFloat, oneInt])) Topic.unopened events final →
      ∀ call other, final.call call = .attached → final.call other = .attached →
        ![oneInt, oneFloat, oneInt] call = ![oneInt, oneFloat, oneInt] other := by
  constructor
  · decide
  · exact (type_check_iff ![oneInt, oneFloat, oneInt] (by decide) (by decide)).mpr (by decide)

/-- After an `int` has been installed, a buffer for nine `double`s passes too. -/
theorem type_check_fails : ∃ events final,
    Run (Steps (advance ![oneInt, nineDoubles])) Topic.unopened events final ∧
      final.call 0 = .attached ∧ final.call 1 = .attached ∧ oneInt.hash ≠ nineDoubles.hash := by
  obtain ⟨events, final, run, passed, passedToo⟩ :=
    larger_passes ![oneInt, nineDoubles] 0 1 (by decide)
  exact ⟨events, final, run, passed, passedToo, by decide⟩

end Tyndall.Ipc
