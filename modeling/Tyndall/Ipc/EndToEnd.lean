import Mathlib.Data.Fin.VecNotation
import Tyndall.Ipc.History

/-!
# From a write to a read, with cleanups in between

Whole programs of any number of processes over the compile-time interface. A
message reaches a reader when the writer's and the reader's statics belong to one
generation of the topic, that is when as many cleanups preceded the first write
as preceded the first read: the shared memory is mapped on the first call and
stays mapped when a cleanup removes its name.
-/

namespace Tyndall.Ipc

open Counter Meta Occurrences Runs SeqLock

variable {Process : Type} [DecidableEq Process] {type : Strval → StorageType}

/-- The ids of a program are stripped and free of NULs, and their names differ. -/
structure Normalised (program : List (ipcInterface Process type).Call) : Prop where
  stripped : ∀ call ∈ program, ∀ id, call.Names id → idRemoveLeadingSlashes id.2 = id.2
  nulFree : ∀ call ∈ program, ∀ id, call.Names id → 0 ∉ id.2
  distinct : ∀ call ∈ program, ∀ other ∈ program, ∀ a b, call.Names a → other.Names b →
    idPrepare a.2 = idPrepare b.2 → a.2 = b.2

/-- An id that some process names in the program. -/
def Mentioned (program : List (ipcInterface Process type).Call) (id : Process × Strval) : Prop :=
  ∃ call ∈ program, ∃ process, call.Names (process, id.2)

omit [DecidableEq Process] in
/-- The mentioned ids of a normalised program use the interface lawfully. -/
theorem Normalised.lawful {program : List (ipcInterface Process type).Call}
    (normalised : Normalised program) :
    Lawful (ipcInterface Process type) (Mentioned program) := by
  refine ipc_lawful type _ ?_ ?_
  · rintro id ⟨call, member, process, names⟩
    exact normalised.nulFree call member (process, id.2) names
  · rintro id other ⟨call, member, process, names⟩ ⟨call', member', process', names'⟩ same
    rw [normalised.distinct call member call' member' (process, id.2) (process', other.2) names
      names' same]

omit [DecidableEq Process] in
/-- In a normalised program a topic's writes are the writes to its id. -/
theorem Normalised.writes_on {program : List (ipcInterface Process type).Call}
    (normalised : Normalised program) (topic : Strval)
    (stripped : idRemoveLeadingSlashes topic = topic) :
    ∀ call ∈ program,
      call.writes ((ipcInterface Process type).on (idRemoveLeadingSlashes topic)) =
        call.writes (fun id => id.2 = topic) := by
  intro call member
  cases call with
  | write id entry =>
    have same := normalised.stripped _ member id rfl
    simp [Call.writes, Interface.on, same, stripped]
  | read id => rfl
  | cleanup => rfl

section SingleWriter

variable {program : List (ipcInterface Process type).Call} {writer : Process} {topic : Strval}
  (normalised : Normalised program) (stripped : idRemoveLeadingSlashes topic = topic)
  (single : ∀ call ∈ program, ∀ process,
    call.writes (fun id => id = (process, topic)) = true → process = writer)

include normalised stripped single

/-- Every write to a topic with one writer goes to the generation of the first one. -/
theorem single_target (before rest : List (ipcInterface Process type).Call) (id : Process × Strval)
    (entry : Entry UInt8 ((ipcInterface Process type).typeOf id).size)
    (split : program = before ++ .write id entry :: rest)
    (here : idRemoveLeadingSlashes id.2 = idRemoveLeadingSlashes topic) :
    (Topics.after before).target (ipcInterface Process type) id =
      cleanups (beforeFirst (Call.writes (fun id => id = (writer, topic))) program) := by
  have member : Call.write id entry ∈ program := by simp [split]
  have spelled : id.2 = topic := by
    rw [← normalised.stripped _ member id rfl, here, stripped]
  have alone : id = (writer, topic) :=
    Prod.ext (single _ member id.1 (by simp [Call.writes, ← spelled])) spelled
  subst alone
  rw [after_target]
  change cleanups (beforeFirst (Call.writes (fun id => id = (writer, topic))) before) = _
  rw [split, beforeFirst_split]
  simp [Call.writes]

/-- At any point of the program that generation has an entry for each write so far. -/
theorem single_count (prior rest : List (ipcInterface Process type).Call)
    (split : program = prior ++ rest) :
    ((Topics.after prior).entries (idRemoveLeadingSlashes topic)
        (cleanups (beforeFirst (Call.writes (fun id => id = (writer, topic))) program))).length =
      writesTo (fun id => id.2 = topic) prior := by
  rw [after_entries_length prior _ _ (fun before id entry after inner =>
    single_target normalised stripped single before (after ++ rest) id entry
      (by simp [split, inner]))]
  exact List.countP_congr fun call member => by
    rw [normalised.writes_on topic stripped call (by simp [split, member])]

/-- After the last write to the topic its entry is the last one there. -/
theorem single_last (earlier later : List (ipcInterface Process type).Call)
    (entry : Entry UInt8 (type (idRemoveLeadingSlashes topic)).size)
    (split : program = earlier ++ .write (writer, topic) entry :: later)
    (newest : ∀ call ∈ later, call.writes (fun id => id.2 = topic) = false) :
    ∃ before, (Topics.after program).entries (idRemoveLeadingSlashes topic)
        (cleanups (beforeFirst (Call.writes (fun id => id = (writer, topic))) program)) =
      before ++ [entry] := by
  have goes := single_target normalised stripped single earlier later (writer, topic) entry split rfl
  have kept : (Topics.after program).entries (idRemoveLeadingSlashes topic) =
      (Topics.after (earlier ++ [.write (writer, topic) entry])).entries
        (idRemoveLeadingSlashes topic) := by
    rw [split, List.append_cons]
    apply after_entries_kept _ later
    intro call member
    rw [normalised.writes_on topic stripped call (by simp [split, member])]
    exact newest call member
  refine ⟨(Topics.after earlier).entries (idRemoveLeadingSlashes topic)
    ((Topics.after earlier).target (ipcInterface Process type) (writer, topic)), ?_⟩
  rw [kept, Topics.after_snoc, ← goes]
  simp [Topics.perform]

end SingleWriter

/-- A normalised program that ends in a read of an id it mentions runs to its
end, and the read has the outcome the topics say. -/
theorem Normalised.executes {program : List (ipcInterface Process type).Call}
    (normalised : Normalised program) (id : Process × Strval) (mentioned : Mentioned program id) :
    ∃ outcomes final, execute (Statics.perform (ipcInterface Process type)) {}
        (program ++ [.read id]) =
      some (outcomes ++ [((Topics.after program).perform (ipcInterface Process type)
        (.read id)).1], final) := by
  obtain ⟨final, executed⟩ := program_outcomes normalised.lawful (program ++ [.read id]) (by
    intro call member other named
    rcases List.mem_append.mp member with inside | read
    · exact ⟨call, inside, other.1, named⟩
    · obtain rfl := List.mem_singleton.mp read
      obtain rfl := named
      exact mentioned)
  rw [replay_snoc] at executed
  exact ⟨_, final, executed⟩

/-- A message reaches a reader. A process writes to a topic that no other process
writes to, and the topic is not written again. Then a process's read returns 0
with the entry, provided as many cleanups preceded the writer's first write to
the topic as precede the reader's first read of it, and the number of writes
since the reader's previous read is not a multiple of `2 ^ 31`.

Proof: all writes go to the generation of the first one, which is the one the
reader looks at; the last entry there is the last one written, and the reader
remembers how many there were at its previous read. -/
theorem end_to_end (program earlier later : List (ipcInterface Process type).Call)
    (writer reader : Process) (topic : Strval)
    (entry : Entry UInt8 (type (idRemoveLeadingSlashes topic)).size)
    (split : program = earlier ++ .write (writer, topic) entry :: later)
    (normalised : Normalised program)
    (single : ∀ call ∈ program, ∀ process,
      call.writes (fun id => id = (process, topic)) = true → process = writer)
    (newest : ∀ call ∈ later, call.writes (fun id => id.2 = topic) = false)
    (mapped : cleanups (beforeFirst (Call.writes (fun id => id = (writer, topic))) program) =
      cleanups (beforeFirst (Call.reads (fun id => id = (reader, topic))) program))
    (moved : writesTo (fun id => id.2 = topic) program % 2 ^ 31 ≠
      writesTo (fun id => id.2 = topic)
        (beforeLast (Call.reads (fun id => id = (reader, topic))) program) % 2 ^ 31) :
    ∃ outcomes final, execute (Statics.perform (ipcInterface Process type)) {}
        (program ++ [.read (reader, topic)]) =
      some (outcomes ++ [.returned (reader, topic) .success entry], final) := by
  have names : Call.write (writer, topic) entry ∈ program := by simp [split]
  have stripped : idRemoveLeadingSlashes topic = topic :=
    normalised.stripped _ names (writer, topic) rfl
  have view := (after_view program (reader, topic)).trans mapped.symm
  obtain ⟨before, last⟩ := single_last normalised stripped single earlier later entry split newest
  have visible : (Topics.after program).visible (ipcInterface Process type) (reader, topic) =
      before ++ [entry] := by
    rw [Topics.visible, view]
    exact last
  have code : ((Topics.after program).judge (ipcInterface Process type) (reader, topic)).1 =
      .success := by
    have seen := after_seen (fun _ _ => congrArg (ipcInterface Process type).topic)
      program (reader, topic)
    obtain ⟨rest, prior⟩ :=
      beforeLast_prefix (Call.reads (fun id => id = (reader, topic))) program
    rw [Topics.judge, conclude_success_iff, seen, view, visible, ← last,
      single_count normalised stripped single program [] (by simp)]
    intro same
    refine moved ((doubled_eq_iff _ _).mp (same.trans (congrArg doubled ?_)))
    exact single_count normalised stripped single _ rest prior
  have performed : ((Topics.after program).perform (ipcInterface Process type)
      (.read (reader, topic))).1 = .returned (reader, topic) .success entry := by
    change Outcome.returned (reader, topic)
      ((Topics.after program).judge (ipcInterface Process type) (reader, topic)).1 _ = _
    rw [code, visible, List.length_append, List.length_singleton, entryAfter_last]
  obtain ⟨outcomes, final, executed⟩ :=
    normalised.executes (reader, topic) ⟨_, names, writer, rfl⟩
  exact ⟨outcomes, final, by rw [executed, performed]⟩

/-- The topic `t`, one storage type, and two processes. -/
abbrev Example.Call : Type := (ipcInterface Nat (fun _ => oneInt)).Call

/-- An entry of four equal bytes. -/
def Example.entry (value : UInt8) : Entry UInt8 oneInt.size := fun _ => value

/-- Programs that mention only the topic `t` are normalised. -/
theorem Example.normalised (program : List Example.Call)
    (only : ∀ call ∈ program, ∀ id, call.Names id → id.2 = chars "t") : Normalised program := by
  constructor
  · intro call member id names
    rw [only call member id names]
    decide
  · intro call member id names
    rw [only call member id names]
    decide
  · intro call member other member' a b names names' _
    rw [only call member a names, only other member' b names']

/-- Process 1 reads too early, process 0 writes, and a cleanup removes the name
of the object both have mapped. -/
def mappedBefore : List Example.Call :=
  [.read (1, chars "t"), .write (0, chars "t") (Example.entry 7), .cleanup]

/-- Process 0 writes to the object that a cleanup has made unreachable. -/
def mappedAcross : List Example.Call :=
  [.write (0, chars "t") (Example.entry 6), .cleanup, .write (0, chars "t") (Example.entry 7)]

/-- The message arrives where both processes had mapped the same object. -/
theorem end_to_end_mapped : ∃ outcomes final,
    execute (Statics.perform (ipcInterface Nat (fun _ => oneInt))) {}
        (mappedBefore ++ [.read (1, chars "t")]) =
      some (outcomes ++ [.returned (1, chars "t") .success (Example.entry 7)], final) :=
  end_to_end mappedBefore [.read (1, chars "t")] [.cleanup] 0 1 (chars "t") (Example.entry 7) rfl
    (Example.normalised _ (by simp [mappedBefore, Call.Names]))
    (by simp [mappedBefore, Call.writes]) (by simp [Call.writes])
    (by decide) (by decide)

/-- It does not arrive where a cleanup came between the first write and the
first read: the reader maps a new object and is told that there is no message. -/
theorem end_to_end_fails : Normalised mappedAcross ∧ ∃ outcomes final,
    execute (Statics.perform (ipcInterface Nat (fun _ => oneInt))) {}
        (mappedAcross ++ [.read (1, chars "t")]) =
      some (outcomes ++ [.returned (1, chars "t") .enomsg (Example.entry 0)], final) := by
  have normalised := Example.normalised mappedAcross (by simp [mappedAcross, Call.Names])
  obtain ⟨outcomes, final, executed⟩ := normalised.executes (1, chars "t")
    ⟨.write (0, chars "t") (Example.entry 6), by simp [mappedAcross], 0, rfl⟩
  exact ⟨normalised, outcomes, final, executed⟩

end Tyndall.Ipc
