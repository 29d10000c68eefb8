import Mathlib.Data.Fin.VecNotation
import Tyndall.Ipc.History
import Tyndall.Ipc.Registry

/-!
# The two interfaces compared

The same program of writes and reads, once with compile-time ids and once with
run-time ids. Both share the memory of a topic among all spellings of its id. They
differ in the readers: at compile time each spelling has a reader of its own, at
run time all spellings share one. So a read returns alike in both exactly when
what it finds is news since the last read of the same spelling and since the last
read of any spelling, or since neither.
-/

namespace Tyndall.Ipc

open Counter Meta Occurrences Runs SeqLock

section Uncleaned

variable {Id Key Topic : Type} [DecidableEq Key] [DecidableEq Topic]
  (interface : Interface Id Key Topic) {program : List interface.Call}

/-- Some read of a wanted id finds a number of entries that does not wrap to zero. -/
def Received {size : Id → Nat} (wanted onTopic : Id → Bool) (program : List (Call Id size)) : Prop :=
  ∃ before id after, program = before ++ .read id :: after ∧ wanted id = true ∧
    writesTo onTopic before % 2 ^ 31 ≠ 0

/-- A new call is the only other candidate. -/
theorem received_snoc {size : Id → Nat} (wanted onTopic : Id → Bool)
    (program : List (Call Id size)) (call : Call Id size) :
    Received wanted onTopic (program ++ [call]) ↔
      Received wanted onTopic program ∨
        (call.reads wanted = true ∧ writesTo onTopic program % 2 ^ 31 ≠ 0) := by
  constructor
  · rintro ⟨before, id, after, split, isWanted, moved⟩
    rcases snoc_split split with ⟨rfl, rfl, -⟩ | ⟨middle, rfl⟩
    · exact .inr ⟨isWanted, moved⟩
    · exact .inl ⟨before, id, middle, rfl, isWanted, moved⟩
  · rintro (⟨before, id, after, rfl, isWanted, moved⟩ | ⟨isWanted, moved⟩)
    · exact ⟨before, id, after ++ [call], by simp, isWanted, moved⟩
    · cases call with
      | read id => exact ⟨program, id, [], rfl, isWanted, moved⟩
      | write id entry => cases isWanted
      | cleanup => cases isWanted

/-- Without cleanups no part of a program has any. -/
theorem cleanups_uncleaned {size : Id → Nat} (marked : Call Id size → Bool)
    {program : List (Call Id size)} (uncleaned : ∀ call ∈ program, call.cleans = false) :
    cleanups (beforeFirst marked program) = 0 := by
  rw [cleanups, List.countP_eq_zero]
  intro call member
  simp [uncleaned call ((List.takeWhile_prefix _).subset member)]

variable (uncleaned : ∀ call ∈ program, call.cleans = false)
include uncleaned

/-- Without cleanups all writes go to the first generation. -/
theorem target_uncleaned (id : Id) : (Topics.after program).target interface id = 0 := by
  rw [after_target]
  exact cleanups_uncleaned _ uncleaned

/-- Without cleanups every read sees all writes to its topic so far. -/
theorem visible_uncleaned (id : Id) :
    ((Topics.after program).visible interface id).length =
      writesTo (interface.on (interface.topic id)) program := by
  rw [Topics.visible, after_view, cleanups_uncleaned _ uncleaned]
  apply after_entries_length program _ 0
  rintro before other entry rest rfl -
  exact target_uncleaned interface (fun call member => uncleaned call (by simp [member])) other

/-- Without cleanups a reader remembers the number of writes at its last read. -/
theorem seen_uncleaned (shared : ∀ id other, interface.slot id = interface.slot other →
      interface.topic id = interface.topic other) (id : Id) :
    ((Topics.after program).view interface id).2.prevSeq = doubled
      (writesTo (interface.on (interface.topic id))
        (beforeLast (Call.reads (interface.through (interface.slot id))) program)) := by
  obtain ⟨rest, split⟩ :=
    beforeLast_prefix (Call.reads (interface.through (interface.slot id))) program
  rw [after_seen shared, after_view, cleanups_uncleaned _ uncleaned, after_entries_length _ _ 0]
  rintro before other entry after inner -
  refine target_uncleaned interface (fun call member => uncleaned call ?_) other
  rw [split, inner]
  simp [member]

/-- Without cleanups a reader has received something once one of its reads found
a number of writes that does not wrap to zero. -/
theorem received_uncleaned (shared : ∀ id other, interface.slot id = interface.slot other →
      interface.topic id = interface.topic other) (id : Id) :
    ((Topics.after program).view interface id).2.hasReadOnce = true ↔
      Received (interface.through (interface.slot id)) (interface.on (interface.topic id))
        program := by
  induction program using List.reverseRecOn with
  | nil => simp [Received, Topics.view]
  | append_singleton program call inductionHypothesis =>
    have before : ∀ call ∈ program, call.cleans = false :=
      fun each member => uncleaned each (by simp [member])
    rw [received_snoc, view_state_snoc shared, ← inductionHypothesis before]
    cases mark : call.reads (interface.through (interface.slot id)) with
    | false => simp
    | true =>
      have fresh := after_fresh shared program id
      rw [if_pos rfl, Topics.judge, conclude_received, visible_uncleaned interface before,
        Bool.or_eq_true, decide_eq_true_eq, conclude_success_iff]
      cases received : ((Topics.after program).view interface id).2.hasReadOnce with
      | true => simp
      | false =>
        rw [fresh received]
        simp [doubled_eq_zero_iff]

end Uncleaned

section Comparison

variable {Process : Type} [DecidableEq Process] {type : Strval → StorageType}

/-- The same id: process and spelling. -/
def sameId (id other : Process × Strval) : Bool := other = id

/-- Any spelling of the same topic, in the same process. -/
def sameReader (id other : Process × Strval) : Bool :=
  (other.1, idRemoveLeadingSlashes other.2) = (id.1, idRemoveLeadingSlashes id.2)

/-- Any spelling of the same topic, in any process. -/
def sameTopic (id other : Process × Strval) : Bool :=
  idRemoveLeadingSlashes other.2 = idRemoveLeadingSlashes id.2

/-- How many writes to a topic preceded the last read among some ids, modulo the
width of the sequence number. -/
def seenBy {size : Process × Strval → Nat} (wanted : Process × Strval → Bool)
    (id : Process × Strval) (program : List (Call (Process × Strval) size)) : Nat :=
  writesTo (sameTopic id) (beforeLast (Call.reads wanted) program) % 2 ^ 31

/-- After a program, a read of an id finds news since the last read of the same
spelling if and only if it finds news since the last read of any spelling; and
where it finds none and the number of writes wraps to zero, some earlier read of
the same spelling received something if and only if some read of any spelling did. -/
structure SameNews {size : Process × Strval → Nat}
    (program : List (Call (Process × Strval) size)) (id : Process × Strval) : Prop where
  news : writesTo (sameTopic id) program % 2 ^ 31 = seenBy (sameId id) id program ↔
    writesTo (sameTopic id) program % 2 ^ 31 = seenBy (sameReader id) id program
  wrapped : writesTo (sameTopic id) program % 2 ^ 31 = seenBy (sameId id) id program →
    writesTo (sameTopic id) program % 2 ^ 31 = seenBy (sameReader id) id program →
    writesTo (sameTopic id) program % 2 ^ 31 = 0 →
    (Received (sameId id) (sameTopic id) program ↔ Received (sameReader id) (sameTopic id) program)

section Agreement

variable {program : List (ipcInterface Process type).Call}
  (uncleaned : ∀ call ∈ program, call.cleans = false)
include uncleaned

/-- A read returns the same code through both interfaces exactly when what it
finds is the same news to both readers. -/
theorem codes_agree_iff (id : Process × Strval) :
    (Topics.judge (ipcInterface Process type) (Topics.after program) id).1 =
        (Topics.judge (rtidInterface Process type) (Topics.after program) id).1 ↔
      SameNews program id := by
  have shared : ∀ a b, (rtidInterface Process type).slot a = (rtidInterface Process type).slot b →
      (rtidInterface Process type).topic a = (rtidInterface Process type).topic b :=
    fun a b same => (Prod.mk.inj same).2
  have own : ∀ a b, (ipcInterface Process type).slot a = (ipcInterface Process type).slot b →
      (ipcInterface Process type).topic a = (ipcInterface Process type).topic b :=
    fun a b => congrArg (ipcInterface Process type).topic
  rw [Topics.judge, Topics.judge, visible_uncleaned (ipcInterface Process type) uncleaned id,
    visible_uncleaned (rtidInterface Process type) uncleaned id]
  change (conclude (doubled (writesTo (sameTopic id) program)) _).1 =
    (conclude (doubled (writesTo (sameTopic id) program)) _).1 ↔ _
  rw [conclude_agree_iff, seen_uncleaned (ipcInterface Process type) uncleaned own id,
    seen_uncleaned (rtidInterface Process type) uncleaned shared id, Bool.eq_iff_iff,
    received_uncleaned (ipcInterface Process type) uncleaned own id,
    received_uncleaned (rtidInterface Process type) uncleaned shared id, doubled_eq_iff,
    doubled_eq_iff, doubled_eq_zero_iff]
  exact ⟨fun agree => ⟨agree.1, agree.2⟩, fun same => ⟨same.news, same.wrapped⟩⟩

/-- Both interfaces put the same entries into a topic. -/
theorem entries_agree (topic : Strval) :
    (Topics.after program : Topics (ipcInterface Process type)).entries topic 0 =
      (Topics.after program : Topics (rtidInterface Process type)).entries topic 0 := by
  induction program using List.reverseRecOn with
  | nil => rfl
  | append_singleton program call inductionHypothesis =>
    have before : ∀ call ∈ program, call.cleans = false :=
      fun each member => uncleaned each (by simp [member])
    have same := inductionHypothesis before
    rw [Topics.after_snoc, Topics.after_snoc]
    cases call with
    | write id entry =>
      by_cases here : topic = idRemoveLeadingSlashes id.2
      · subst here
        simp [Topics.perform, target_uncleaned (ipcInterface Process type) before id,
          target_uncleaned (rtidInterface Process type) before id, same]
      · simp [Topics.perform, here, same]
    | read id => exact same
    | cleanup => exact same

/-- A call has the same outcome through both interfaces, unless it is a read that
finds news to only one of the two readers. -/
theorem outcomes_agree_iff (call : (ipcInterface Process type).Call) :
    (Topics.perform (ipcInterface Process type) (Topics.after program) call).1 =
        (Topics.perform (rtidInterface Process type) (Topics.after program) call).1 ↔
      ∀ id, call = .read id → SameNews program id := by
  cases call with
  | write id entry => simp [Topics.perform]
  | cleanup => simp [Topics.perform]
  | read id =>
    have codes := codes_agree_iff uncleaned id
    have visible : Topics.visible (ipcInterface Process type) (Topics.after program) id =
        Topics.visible (rtidInterface Process type) (Topics.after program) id := by
      rw [Topics.visible, Topics.visible, after_view, after_view, cleanups_uncleaned _ uncleaned,
        cleanups_uncleaned _ uncleaned]
      exact entries_agree uncleaned _
    change Outcome.returned id (Topics.judge (ipcInterface Process type) (Topics.after program) id).1
        _ = .returned id (Topics.judge (rtidInterface Process type) (Topics.after program) id).1 _ ↔ _
    rw [visible]
    constructor
    · intro same other named
      obtain rfl := Call.read.inj named
      exact codes.mp (Outcome.returned.inj same).2.1
    · intro same
      rw [codes.mpr (same id rfl)]

end Agreement

/-- The program's ids are free of NULs, and both kinds of names tell apart ids
that differ after stripping leading slashes. -/
structure Distinct (program : List (ipcInterface Process type).Call) : Prop where
  nulFree : ∀ call ∈ program, ∀ id, call.Names id → 0 ∉ id.2
  prepared : ∀ call ∈ program, ∀ other ∈ program, ∀ a b, call.Names a → other.Names b →
    idPrepare a.2 = idPrepare b.2 → idRemoveLeadingSlashes a.2 = idRemoveLeadingSlashes b.2
  rtidPrepared : ∀ call ∈ program, ∀ other ∈ program, ∀ a b, call.Names a → other.Names b →
    idRtidPrepare a.2 = idRtidPrepare b.2 →
      idRemoveLeadingSlashes a.2 = idRemoveLeadingSlashes b.2

/-- Such a program runs to its end through both interfaces, with the outcomes the
topics say. -/
theorem Distinct.outcomes {program : List (ipcInterface Process type).Call}
    (distinct : Distinct program) :
    (∃ final, execute (Statics.perform (ipcInterface Process type)) {} program =
      some ((replay (Topics.perform (ipcInterface Process type)) {} program).1, final)) ∧
    (∃ final, execute (Registries.perform type) {} program =
      some ((replay (Topics.perform (rtidInterface Process type)) {} program).1, final)) := by
  let used : Process × Strval → Prop := fun id => ∃ call ∈ program, call.Names id
  have nulFree : ∀ id, used id → 0 ∉ id.2 := by
    rintro id ⟨call, member, named⟩
    exact distinct.nulFree call member id named
  constructor
  · refine program_outcomes (ipc_lawful type used nulFree ?_) program ?_
    · rintro id other ⟨call, member, named⟩ ⟨call', member', named'⟩
      exact distinct.prepared call member call' member' id other named named'
    · exact fun call member id named => ⟨call, member, named⟩
  · refine rtid_program_outcomes nulFree ?_ program ?_
    · rintro id other ⟨call, member, named⟩ ⟨call', member', named'⟩
      exact distinct.rtidPrepared call member call' member' id other named named'
    · exact fun call member id named => ⟨call, member, named⟩

/-- A program of writes and reads has the same outcomes through both interfaces
if and only if at each of its reads the reader of the spelling and the reader of
all spellings find the same news.

Proof: both interfaces put the same entries into a topic, so the outcomes of a
call differ only in a read's code, and that depends on what its reader has seen. -/
theorem interfaces_agree_iff (program : List (ipcInterface Process type).Call)
    (uncleaned : ∀ call ∈ program, call.cleans = false) (distinct : Distinct program) :
    ∃ outcomes outcomesRtid final finalRtid,
      execute (Statics.perform (ipcInterface Process type)) {} program = some (outcomes, final) ∧
      execute (Registries.perform type) {} program = some (outcomesRtid, finalRtid) ∧
      (outcomes = outcomesRtid ↔
        ∀ before id after, program = before ++ .read id :: after → SameNews before id) := by
  obtain ⟨⟨final, executed⟩, finalRtid, executedRtid⟩ := distinct.outcomes
  refine ⟨_, _, final, finalRtid, executed, executedRtid, ?_⟩
  rw [replay_agree_iff (Topics.perform (ipcInterface Process type))
    (Topics.perform (rtidInterface Process type))]
  have uncleanedBefore : ∀ before (call : (ipcInterface Process type).Call) after,
      program = before ++ call :: after → ∀ call ∈ before, call.cleans = false :=
    fun before call after split each member => uncleaned each (by simp [split, member])
  constructor
  · intro agree before id after split
    exact (outcomes_agree_iff (uncleanedBefore _ _ _ split) _).mp (agree before _ after split) id rfl
  · intro same before call after split
    apply (outcomes_agree_iff (uncleanedBefore _ _ _ split) call).mpr
    rintro id rfl
    exact same before id after split

end Comparison

/-- Programs that spell the topic `t` with or without a slash are distinct. -/
theorem distinct_spellings (program : List (ipcInterface Nat (fun _ => oneInt)).Call)
    (only : ∀ call ∈ program, ∀ id, call.Names id → id.2 = chars "t" ∨ id.2 = chars "/t") :
    Distinct program := by
  have stripped : ∀ call ∈ program, ∀ id, call.Names id →
      idRemoveLeadingSlashes id.2 = chars "t" := by
    intro call member id named
    rcases only call member id named with spelled | spelled <;> rw [spelled] <;> decide
  constructor
  · intro call member id named
    rcases only call member id named with spelled | spelled <;> rw [spelled] <;> decide
  · intro call member other member' a b named named' _
    rw [stripped call member a named, stripped other member' b named']
  · intro call member other member' a b named named' _
    rw [stripped call member a named, stripped other member' b named']

/-- Two spellings, each read after a write of its own. -/
def alternating : List (ipcInterface Nat (fun _ => oneInt)).Call :=
  [.write (0, chars "/t") (fun _ => 7), .read (0, chars "t"), .write (0, chars "t") (fun _ => 8),
    .read (0, chars "/t")]

/-- One message, read under two spellings. -/
def rereading : List (ipcInterface Nat (fun _ => oneInt)).Call :=
  [.write (0, chars "t") (fun _ => 7), .read (0, chars "t"), .read (0, chars "/t")]

/-- News of its own for each spelling is news through both interfaces. -/
theorem interfaces_agree_alternating : ∃ outcomes final finalRtid,
    execute (Statics.perform (ipcInterface Nat (fun _ => oneInt))) {} alternating =
        some (outcomes, final) ∧
      execute (Registries.perform (fun _ => oneInt)) {} alternating =
        some (outcomes, finalRtid) := by
  obtain ⟨outcomes, outcomesRtid, final, finalRtid, executed, executedRtid, agree⟩ :=
    interfaces_agree_iff alternating (by simp [alternating, Call.cleans])
      (distinct_spellings alternating (by simp [alternating, Call.Names]))
  have reads : ∀ before id after, alternating = before ++ .read id :: after →
      before = alternating.take 1 ∧ id = (0, chars "t") ∨
        before = alternating.take 3 ∧ id = (0, chars "/t") := by
    intro before id after split
    rcases before with _ | ⟨a, _ | ⟨b, _ | ⟨c, _ | ⟨d, rest⟩⟩⟩⟩ <;> simp_all [alternating]
  obtain rfl := agree.mpr (by
    intro before id after split
    rcases reads before id after split with ⟨rfl, rfl⟩ | ⟨rfl, rfl⟩
    · exact ⟨by decide, fun _ _ zero => absurd zero (by decide)⟩
    · exact ⟨by decide, fun _ _ zero => absurd zero (by decide)⟩)
  exact ⟨outcomes, final, finalRtid, executed, executedRtid⟩

/-- A second spelling finds the message once more at compile time, and is told at
run time that there is no new one. -/
theorem interfaces_agree_fails : ∃ final finalRtid,
    execute (Statics.perform (ipcInterface Nat (fun _ => oneInt))) {} rereading =
        some ([.done, .returned (0, chars "t") .success (fun _ => 7),
          .returned (0, chars "/t") .success (fun _ => 7)], final) ∧
      execute (Registries.perform (fun _ => oneInt)) {} rereading =
        some ([.done, .returned (0, chars "t") .success (fun _ => 7),
          .returned (0, chars "/t") .eagain (fun _ => 7)], finalRtid) := by
  obtain ⟨⟨final, executed⟩, finalRtid, executedRtid⟩ :=
    (distinct_spellings rereading (by simp [rereading, Call.Names])).outcomes
  exact ⟨final, finalRtid, executed, executedRtid⟩

end Tyndall.Ipc
