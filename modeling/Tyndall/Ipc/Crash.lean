import Tyndall.Ipc.SeqLockAlone
import Tyndall.Ipc.Snapshot

/-!
# A writer that dies, and the one that replaces it

Shared memory outlives its processes. A new writer takes the number as it finds
it, and `seq_lock_write_begin` only increments: after a death between the two
stores of the number, the next write makes an odd number even while it stores
and odd again when it is done. Readers then accept entries that are being stored
and spin once the write is complete.

As long as no write begins on an odd number, deaths do no harm: a completed
write leaves the number even, and every read returns the entry of one write.
-/

namespace Tyndall.SeqLock

open Counter Runs

variable {R W : Type} {width : Nat}

/-- Once a write has completed after the last death, and while no live writer is
inside `write`, the number is even and a reader running alone returns. -/
def Recovered [DecidableEq R] (log : Log R W width) (system : System R W width) : Prop :=
  system.writer.inside = false → 0 < log.sinceDeath →
    system.lock.seq &&& 1 = 0 ∧ ∀ name, ∃ events code entry final,
      Run (AloneStep name) system (events ++ [.returned name code entry]) final

/-- A read handed back the entry of one write of the run, or the initial one. -/
def Unmixed [Zero W] (events : List (Event R W width)) (read : Read R W width) : Prop :=
  read.entry = (fun _ => 0) ∨ .called read.entry ∈ events

/-- Every completed write was called. -/
theorem completed_called [DecidableEq R] {events : List (Event R W width)}
    {final : System R W width} [Zero W] (run : Run CrashStep System.initial events final) :
    (∀ entry ∈ (history events).writes, .called entry ∈ events) ∧
      match final.writer with
      | .dead | .idle => True
      | .beginning entry | .raising entry _ | .storing entry _ _ => .called entry ∈ events := by
  induction run with
  | refl => exact ⟨fun entry member => absurd member List.not_mem_nil, trivial⟩
  | snoc events event state next _ taken inductionHypothesis =>
    obtain ⟨written, writing⟩ := inductionHypothesis
    have earlier : ∀ {entry : Entry W width}, .called entry ∈ events →
        .called entry ∈ events ++ [event] := fun member => List.mem_append_left _ member
    have before : ∀ entry ∈ (history events).writes, .called entry ∈ events ++ [event] :=
      fun entry member => earlier (written entry member)
    rw [history, observed_snoc]
    cases crash_effect taken with
    | died alive => exact ⟨before, trivial⟩
    | attached gone => exact ⟨before, trivial⟩
    | live _ _ effect =>
      cases effect with
      | called entry ready =>
        exact ⟨before, by simp⟩
      | loaded entry stands =>
        simp only [stands] at writing
        exact ⟨before, earlier writing⟩
      | raised entry seq1 stands =>
        simp only [stands] at writing
        exact ⟨before, earlier writing⟩
      | stored entry seq1 index inside stands =>
        simp only [stands] at writing
        exact ⟨before, earlier writing⟩
      | completed entry seq1 index finished stands =>
        simp only [stands] at writing
        refine ⟨?_, trivial⟩
        intro other member
        rcases List.mem_append.mp member with among | newest
        · exact before other among
        · obtain rfl := List.mem_singleton.mp newest
          exact earlier writing
      | readCalled | spun | begun | copied | retried | returned =>
        refine ⟨before, ?_⟩
        revert writing
        simp only [setReader_writer]
        split <;> simp_all

/-- Deaths are harmless while no write begins on an odd number: a completed write
after the last death leaves the number even, so that a reader running alone
returns, and a read whose final attempt overlaps fewer than `2 ^ 31` writes hands
back the entry of one write.

Proof: the record is consistent with the state. A dead or idle writer leaves the
memory quiet or wedged, and a write completed since the last death rules out the
second. A whole entry is the initial one or that of a completed write, and every
completed write was called. -/
theorem crash_recovery [Zero W] [DecidableEq R] (events : List (Event R W width))
    (final : System R W width) (run : EvenRun events final) :
    Recovered (history events) final ∧
    ∀ read ∈ (history events).reads, read.overlap < 2 ^ 31 → Unmixed events read := by
  have consistent : Consistent (history events) final := even_run_consistent run
  constructor
  · intro outside recovered
    have quiet : Quiet (history events) final.lock := by
      have writer := consistent.writer
      cases stands : final.writer with
      | dead | idle =>
        simp only [WriterConsistent, stands] at writer
        rcases writer with quiet | wedged
        · exact quiet
        · exact absurd wedged.2.2 (Nat.ne_of_gt recovered)
      | _ => simp [Writer.inside, stands] at outside
    have even : final.lock.seq &&& 1 = 0 := by
      rw [quiet.1]
      exact doubled_low_bit _
    exact ⟨even, fun name => alone_returns final name even⟩
  · intro read member short
    obtain ⟨versioned, _, whole⟩ := consistent.recorded read member
    have crashRun : Run CrashStep System.initial events final :=
      run.mono (fun _ _ _ taken => taken.2)
    rw [Unmixed, whole short]
    cases version : read.version with
    | zero => exact Or.inl rfl
    | succ earlier =>
      have inside : earlier < (history events).writes.length := by omega
      refine Or.inr ((completed_called crashRun).1 _ ?_)
      simp [entryAfter, List.getD, inside]

/-- A run is of the harmless kind exactly when every number a write loaded at its
start was even. -/
theorem even_run_iff [DecidableEq R] [Zero W] (events : List (Event R W width))
    (final : System R W width) : EvenRun events final ↔
      Run CrashStep System.initial events final ∧ ∀ seq, .loaded seq ∈ events → seq &&& 1 = 0 := by
  constructor
  · intro run
    refine ⟨run.mono (fun _ _ _ taken => taken.2), ?_⟩
    induction run with
    | refl => exact fun seq member => absurd member List.not_mem_nil
    | snoc events event state next _ taken inductionHypothesis =>
      intro seq member
      rcases List.mem_append.mp member with earlier | newest
      · exact inductionHypothesis seq earlier
      · obtain rfl := List.mem_singleton.mp newest
        cases crash_effect taken.2 with
        | live _ _ effect =>
          cases effect with
          | loaded entry stands => exact taken.1
  · rintro ⟨run, even⟩
    induction run with
    | refl => exact .refl
    | snoc events event state next _ taken inductionHypothesis =>
      have evenStart : EvenStart state event := by
        cases crash_effect taken with
        | live _ _ effect =>
          cases effect with
          | loaded entry stands => exact even _ (by simp)
          | _ => exact trivial
        | _ => exact trivial
      exact .snoc events event state next
        (inductionHypothesis (fun seq member => even seq (List.mem_append_left _ member)))
        ⟨evenStart, taken⟩

/-- A writer dies before its first store; its successor completes a write, which a
reader then receives. -/
def restartEven : List (CrashAction Unit Nat 2) :=
  [.live (.write ![1, 1]), .live .writer, .die, .attach,
    .live (.write ![2, 2]), .live .writer, .live .writer, .live .writer, .live .writer, .live .writer,
    .live (.read () ![0, 0]), .live (.reader ()), .live (.reader ()), .live (.reader ()),
    .live (.reader ())]

/-- The numbers that writes loaded. -/
def loadedNumber : Event Unit Nat 2 → Option UInt32
  | .loaded seq => some seq
  | _ => none

/-- That run recovers, and its read is whole. -/
theorem crash_recovery_even : ∃ events final,
    execute advanceCrash (System.initial : System Unit Nat 2) restartEven = some (events, final) ∧
    (history events).reads.map (fun read => (read.entry 0, read.entry 1)) = [(2, 2)] ∧
    Recovered (history events) final ∧
    ∀ read ∈ (history events).reads, read.overlap < 2 ^ 31 → Unmixed events read := by
  obtain ⟨⟨events, final⟩, executed⟩ : ∃ result, execute advanceCrash
      (System.initial : System Unit Nat 2) restartEven = some result := ⟨_, rfl⟩
  have outcome : (execute advanceCrash (System.initial : System Unit Nat 2) restartEven).map
      (fun result => (result.1.filterMap loadedNumber,
        (history result.1).reads.map (fun read => (read.entry 0, read.entry 1)))) =
      some ([0, 0], [(2, 2)]) := rfl
  simp only [executed, Option.map_some, Option.some.injEq, Prod.mk.injEq] at outcome
  obtain ⟨loaded, returned⟩ := outcome
  have even : ∀ seq, Event.loaded seq ∈ events → seq &&& 1 = 0 := by
    intro seq member
    have among : seq ∈ events.filterMap loadedNumber := List.mem_filterMap.mpr ⟨_, member, rfl⟩
    simp only [loaded, List.mem_cons, List.not_mem_nil, or_false, or_self] at among
    rw [among]
    rfl
  exact ⟨events, final, executed, returned, crash_recovery events final
    ((even_run_iff events final).mpr ⟨execute_run advanceCrash _ _ _ _ executed, even⟩)⟩

/-- A write of 1s completes, a write of 2s dies after its first word, and the
next writer's write of 3s is read halfway before it completes. -/
def restartHalfway : List (CrashAction Unit Nat 2) :=
  [.live (.write ![1, 1]), .live .writer, .live .writer, .live .writer, .live .writer, .live .writer,
    .live (.write ![2, 2]), .live .writer, .live .writer, .live .writer, .die, .attach,
    .live (.write ![3, 3]), .live .writer, .live .writer, .live .writer,
    .live (.read () ![0, 0]), .live (.reader ()), .live (.reader ()), .live (.reader ()),
    .live (.reader ()), .live .writer, .live .writer]

/-- The two words of a called entry. -/
def calledWords : Event Unit Nat 2 → Option (Nat × Nat)
  | .called entry => some (entry 0, entry 1)
  | _ => none

/-- After that run the number stays odd although the last write completed, and
the read handed back one word of the 3s and one of the 1s. -/
theorem crash_recovery_fails : ∃ events final,
    execute advanceCrash (System.initial : System Unit Nat 2) restartHalfway = some (events, final) ∧
    Run CrashStep (System.initial : System Unit Nat 2) events final ∧
    ¬ Recovered (history events) final ∧
    ¬ ∀ read ∈ (history events).reads, Unmixed events read := by
  obtain ⟨⟨events, final⟩, executed⟩ : ∃ result, execute advanceCrash
      (System.initial : System Unit Nat 2) restartHalfway = some result := ⟨_, rfl⟩
  have outcome : (execute advanceCrash (System.initial : System Unit Nat 2) restartHalfway).map
      (fun result => (result.2.lock.seq &&& 1, result.2.writer.inside,
        (history result.1).sinceDeath, result.1.filterMap calledWords,
        (history result.1).reads.map (fun read => (read.entry 0, read.entry 1)))) =
      some (1, false, 1, [(1, 1), (2, 2), (3, 3)], [(3, 1)]) := rfl
  simp only [executed, Option.map_some, Option.some.injEq, Prod.mk.injEq] at outcome
  obtain ⟨odd, outside, since, called, returned⟩ := outcome
  refine ⟨events, final, executed, execute_run advanceCrash _ _ _ _ executed, ?_, ?_⟩
  · intro recovered
    have even := (recovered outside (by omega)).1
    rw [odd] at even
    exact absurd even (by decide)
  · intro unmixed
    have mixed : (3, 1) ∈ (history events).reads.map (fun read => (read.entry 0, read.entry 1)) := by
      simp [returned]
    obtain ⟨read, member, words⟩ := List.mem_map.mp mixed
    rcases unmixed read member with initial | written
    · simp [initial] at words
    · have among : (3, 1) ∈ events.filterMap calledWords :=
        List.mem_filterMap.mpr ⟨_, written, by simp [calledWords, words]⟩
      simp [called] at among

end Tyndall.SeqLock
