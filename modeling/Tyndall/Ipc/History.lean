import Tyndall.Foundation.Occurrences
import Tyndall.Ipc.Topics

/-!
# What the topics remember of a program

The state of the topics after a program, told from the program alone. The
generation counts the cleanups; a static belongs to the generation of the first
call through it; and a reader remembers how many entries its generation of the
topic had at the reader's last read.
-/

namespace Tyndall.Ipc

open Counter Occurrences SeqLock

variable {Id Key Topic : Type}

/-- A write to an id that meets a condition. -/
def Call.writes {size : Id → Nat} (wanted : Id → Bool) : Call Id size → Bool
  | .write id _ => wanted id
  | _ => false

/-- A read of an id that meets a condition. -/
def Call.reads {size : Id → Nat} (wanted : Id → Bool) : Call Id size → Bool
  | .read id => wanted id
  | _ => false

/-- A cleanup. -/
def Call.cleans {size : Id → Nat} : Call Id size → Bool
  | .cleanup => true
  | _ => false

/-- How many cleanups a program has. -/
def cleanups {size : Id → Nat} (program : List (Call Id size)) : Nat :=
  program.countP Call.cleans

/-- How many writes to ids that meet a condition a program has. -/
def writesTo {size : Id → Nat} (wanted : Id → Bool) (program : List (Call Id size)) : Nat :=
  program.countP (Call.writes wanted)

variable [DecidableEq Key] [DecidableEq Topic] {interface : Interface Id Key Topic}

/-- The ids of a topic. -/
def Interface.on (interface : Interface Id Key Topic) (topic : Topic) (id : Id) : Bool :=
  interface.topic id = topic

/-- The ids of a static. -/
def Interface.through (interface : Interface Id Key Topic) (key : Key) (id : Id) : Bool :=
  interface.slot id = key

/-- The generation counts the cleanups. -/
theorem after_generation (program : List interface.Call) :
    (Topics.after program).generation = cleanups program := by
  induction program using List.reverseRecOn with
  | nil => rfl
  | append_singleton program call inductionHypothesis =>
    rw [Topics.after_snoc, cleanups, List.countP_append, ← cleanups, ← inductionHypothesis]
    cases call <;> rfl

/-- A static belongs to the generation of the first call through it. -/
theorem first_generation (slots : Topics interface → Option Nat) (marked : interface.Call → Bool)
    (unused : slots {} = none)
    (entered : ∀ topics call, marked call = true →
      slots (topics.perform interface call).2 = some ((slots topics).getD topics.generation))
    (passed : ∀ topics call, marked call = false →
      slots (topics.perform interface call).2 = slots topics)
    (program : List interface.Call) :
    (slots (Topics.after program)).getD (Topics.after program).generation =
      cleanups (beforeFirst marked program) ∧
    ((slots (Topics.after program)).isSome = true ↔ ∃ call ∈ program, marked call = true) := by
  induction program using List.reverseRecOn with
  | nil => simp [unused, beforeFirst, cleanups]
  | append_singleton program call inductionHypothesis =>
    obtain ⟨generation, used⟩ := inductionHypothesis
    rw [Topics.after_snoc]
    cases mark : marked call with
    | true =>
      rw [entered _ call mark, beforeFirst_split marked program [] call mark, generation]
      exact ⟨rfl, by simp [mark]⟩
    | false =>
      rw [passed _ call mark]
      refine ⟨?_, by simp [used, mark]⟩
      cases stands : slots (Topics.after program) with
      | some first =>
        have earlier := used.mp (by simp [stands])
        rw [beforeFirst_append marked program [call] earlier, ← generation, stands]
        rfl
      | none =>
        have never : ∀ other ∈ program ++ [call], marked other = false := by
          intro other member
          by_contra marks
          rcases List.mem_append.mp member with earlier | last
          · have some_used := used.mpr ⟨other, earlier, by simpa using marks⟩
            simp [stands] at some_used
          · rw [List.mem_singleton.mp last] at marks
            exact marks mark
        rw [beforeFirst_none marked _ never, ← after_generation, Topics.after_snoc]
        rfl

/-- A writer's static belongs to the generation of the first write through it. -/
theorem after_target (program : List interface.Call) (id : Id) :
    (Topics.after program).target interface id =
      cleanups (beforeFirst (Call.writes (interface.through (interface.slot id))) program) := by
  refine (first_generation (fun topics => topics.writers (interface.slot id))
    (Call.writes (interface.through (interface.slot id))) rfl ?_ ?_ program).1
  · intro topics call marked
    cases call with
    | write other entry =>
      have same : interface.slot other = interface.slot id := by
        simpa [Call.writes, Interface.through] using marked
      simp [Topics.perform, Topics.target, same]
    | read other => cases marked
    | cleanup => cases marked
  · intro topics call unmarked
    cases call with
    | write other entry =>
      have different : interface.slot id ≠ interface.slot other := by
        simpa [Call.writes, Interface.through, eq_comm] using unmarked
      simp [Topics.perform, different]
    | read other => rfl
    | cleanup => rfl

/-- A reader's static belongs to the generation of the first read through it. -/
theorem after_view (program : List interface.Call) (id : Id) :
    ((Topics.after program).view interface id).1 =
      cleanups (beforeFirst (Call.reads (interface.through (interface.slot id))) program) := by
  have view : ∀ topics : Topics interface, (topics.view interface id).1 =
      ((topics.readers (interface.slot id)).map Prod.fst).getD topics.generation := by
    intro topics
    rw [Topics.view]
    cases topics.readers (interface.slot id) <;> rfl
  rw [view]
  refine (first_generation (fun topics => (topics.readers (interface.slot id)).map Prod.fst)
    (Call.reads (interface.through (interface.slot id))) rfl ?_ ?_ program).1
  · intro topics call marked
    cases call with
    | read other =>
      have same : interface.slot other = interface.slot id := by
        simpa [Call.reads, Interface.through] using marked
      rw [← view]
      simp [Topics.perform, Topics.view, same]
    | write other entry => cases marked
    | cleanup => cases marked
  · intro topics call unmarked
    cases call with
    | read other =>
      have different : interface.slot id ≠ interface.slot other := by
        simpa [Call.reads, Interface.through, eq_comm] using unmarked
      simp [Topics.perform, different]
    | write other entry => rfl
    | cleanup => rfl

/-- A call that does not write to a topic leaves its entries. -/
theorem perform_entries (topics : Topics interface) (call : interface.Call) (topic : Topic)
    (elsewhere : call.writes (interface.on topic) = false) :
    (topics.perform interface call).2.entries topic = topics.entries topic := by
  cases call with
  | write id entry =>
    have different : topic ≠ interface.topic id := by
      simpa [Call.writes, Interface.on, eq_comm] using elsewhere
    simp [Topics.perform, different]
  | read id => rfl
  | cleanup => rfl

/-- Calls that do not write to a topic leave its entries. -/
theorem after_entries_kept (program rest : List interface.Call) (topic : Topic)
    (elsewhere : ∀ call ∈ rest, call.writes (interface.on topic) = false) :
    (Topics.after (program ++ rest)).entries topic = (Topics.after program).entries topic := by
  induction rest using List.reverseRecOn with
  | nil => simp
  | append_singleton rest call inductionHypothesis =>
    rw [← List.append_assoc, Topics.after_snoc, perform_entries _ _ _ (elsewhere call (by simp))]
    exact inductionHypothesis (fun other member => elsewhere other (by simp [member]))

/-- While all writes to a topic go to one generation, that generation has an entry
for each of them. -/
theorem after_entries_length (program : List interface.Call) (topic : Topic) (target : Nat)
    (gathered : ∀ before id entry rest, program = before ++ .write id entry :: rest →
      interface.topic id = topic → (Topics.after before).target interface id = target) :
    ((Topics.after program).entries topic target).length =
      writesTo (interface.on topic) program := by
  induction program using List.reverseRecOn with
  | nil => rfl
  | append_singleton program call inductionHypothesis =>
    have before := inductionHypothesis (fun earlier id entry rest split =>
      gathered earlier id entry (rest ++ [call]) (by simp [split]))
    rw [Topics.after_snoc, writesTo, List.countP_append, ← writesTo, ← before]
    cases call with
    | write id entry =>
      by_cases here : interface.topic id = topic
      · have goes := gathered program id entry [] rfl here
        subst here
        simp [Topics.perform, goes, Call.writes, Interface.on]
      · rw [perform_entries _ _ _ (by simp [Call.writes, Interface.on, here])]
        simp [Call.writes, Interface.on, here]
    | read id => rfl
    | cleanup => rfl

/-- Only a read through a reader's static changes its state, and it leaves what
the read concludes. -/
theorem view_state_snoc (shared : ∀ id other, interface.slot id = interface.slot other →
      interface.topic id = interface.topic other)
    (program : List interface.Call) (call : interface.Call) (id : Id) :
    ((Topics.after (program ++ [call])).view interface id).2 =
      if call.reads (interface.through (interface.slot id)) then
        ((Topics.after program).judge interface id).2
      else ((Topics.after program).view interface id).2 := by
  rw [Topics.after_snoc]
  cases call with
  | read other =>
    by_cases same : interface.slot other = interface.slot id
    · have view : (Topics.after program).view interface other =
          (Topics.after program).view interface id := by
        rw [Topics.view, same, Topics.view]
      have visible : ((Topics.after program).visible interface other).length =
          ((Topics.after program).visible interface id).length := by
        rw [Topics.visible, view]
        exact congrArg (fun topic => ((Topics.after program).entries topic _).length)
          (shared other id same)
      have judged : (Topics.after program).judge interface other =
          (Topics.after program).judge interface id := by
        rw [Topics.judge, visible, view, Topics.judge]
      rw [Topics.view]
      simp [Topics.perform, Call.reads, Interface.through, same, judged]
    · have different : ¬ interface.slot id = interface.slot other := Ne.symm same
      rw [Topics.view]
      simp [Topics.perform, Call.reads, Interface.through, same, different, Topics.view]
  | write other entry => rfl
  | cleanup =>
    rw [Topics.view, Topics.view]
    cases stands : (Topics.after program).readers (interface.slot id) <;>
      simp [Topics.perform, Call.reads, stands]

/-- A reader that has received nothing remembers a zero. -/
theorem after_fresh (shared : ∀ id other, interface.slot id = interface.slot other →
      interface.topic id = interface.topic other)
    (program : List interface.Call) (id : Id) :
    ((Topics.after program).view interface id).2.hasReadOnce = false →
      ((Topics.after program).view interface id).2.prevSeq = 0 := by
  induction program using List.reverseRecOn with
  | nil => exact fun _ => rfl
  | append_singleton program call inductionHypothesis =>
    rw [view_state_snoc shared]
    split
    · exact conclude_fresh _ _ inductionHypothesis
    · exact inductionHypothesis

/-- What a reader's static remembers: nothing before the first read through it,
and otherwise the number of entries at the last one. -/
theorem after_reader (shared : ∀ id other, interface.slot id = interface.slot other →
      interface.topic id = interface.topic other)
    (program : List interface.Call) (id : Id) :
    match (Topics.after program).readers (interface.slot id) with
    | none => beforeLast (Call.reads (interface.through (interface.slot id))) program = []
    | some (generation, state) => state.prevSeq = doubled
        ((Topics.after (beforeLast (Call.reads (interface.through (interface.slot id))) program)).entries
          (interface.topic id) generation).length := by
  induction program using List.reverseRecOn with
  | nil => simp
  | append_singleton program call inductionHypothesis =>
    rw [beforeLast_snoc, Topics.after_snoc]
    cases mark : call.reads (interface.through (interface.slot id)) with
    | true =>
      cases call with
      | read other =>
        have same : interface.slot other = interface.slot id := by
          simpa [Call.reads, Interface.through] using mark
        have view : (Topics.after program).view interface other =
            (Topics.after program).view interface id := by
          rw [Topics.view, same, Topics.view]
        simp only [Topics.perform, same, Function.update_self, Topics.judge, conclude_prev,
          Topics.visible, view, if_true]
        exact congrArg (fun topic => doubled ((Topics.after program).entries topic _).length)
          (shared other id same)
      | write other entry => cases mark
      | cleanup => cases mark
    | false =>
      have kept : ((Topics.after program).perform interface call).2.readers (interface.slot id) =
          (Topics.after program).readers (interface.slot id) := by
        cases call with
        | read other =>
          have different : interface.slot id ≠ interface.slot other := by
            simpa [Call.reads, Interface.through, eq_comm] using mark
          simp [Topics.perform, different]
        | write other entry => rfl
        | cleanup => rfl
      rw [kept]
      simpa using inductionHypothesis

/-- The sequence number a reader compares with stands for the entries at its last
read, or for none. -/
theorem after_seen (shared : ∀ id other, interface.slot id = interface.slot other →
      interface.topic id = interface.topic other)
    (program : List interface.Call) (id : Id) :
    ((Topics.after program).view interface id).2.prevSeq = doubled
      ((Topics.after (beforeLast (Call.reads (interface.through (interface.slot id))) program)).entries
        (interface.topic id) ((Topics.after program).view interface id).1).length := by
  have remembered := after_reader shared program id
  rw [Topics.view]
  cases stands : (Topics.after program).readers (interface.slot id) with
  | none =>
    rw [stands] at remembered
    simp only at remembered
    rw [remembered]
    rfl
  | some reader =>
    rw [stands] at remembered
    exact remembered

end Tyndall.Ipc
