import Tyndall.Foundation.Occurrences
import Tyndall.Ipc.Snapshot

/-!
# What one reader receives over a whole run

A reader remembers two things: the last sequence number it read and whether a
read of it ever succeeded. Both are functions of the reads it has completed, and
each return code is `conclude` applied to them. While fewer than `2 ^ 31` writes
complete from one read to the next, comparing numbers is comparing versions, so
the codes say exactly what happened: something new was written, nothing new was
written since the last message, or nothing was ever written.
-/

namespace Tyndall.SeqLock

open Counter Occurrences Runs

variable {R W : Type} {width : Nat}

/-- The recorded reads of one reader, oldest first. -/
def Log.readsOf [DecidableEq R] (log : Log R W width) (name : R) : List (Read R W width) :=
  log.reads.filter (fun read => read.reader = name)

/-- The version of the previous read, or zero when the topic was just created. -/
def lastVersion (reads : List (Read R W width)) : Nat :=
  (reads.getLast?.map Read.version).getD 0

/-- The reads that returned 0. -/
def received (reads : List (Read R W width)) : List (Read R W width) :=
  reads.filter (fun read => read.code = .success)

/-- What a reader's state holds after its reads. -/
def stateAfter (reads : List (Read R W width)) : State :=
  { prevSeq := doubled (lastVersion reads)
    hasReadOnce := reads.any (fun read => read.code = .success) }

@[simp] theorem lastVersion_nil : lastVersion ([] : List (Read R W width)) = 0 := rfl

@[simp] theorem lastVersion_snoc (reads : List (Read R W width)) (read : Read R W width) :
    lastVersion (reads ++ [read]) = read.version := by
  simp [lastVersion]

/-- Every code is the conclusion from the version read and the state before, and
versions never decrease. -/
def Judged (reads : List (Read R W width)) : Prop :=
  ∀ before read after, reads = before ++ read :: after →
    read.code = (conclude (doubled read.version) (stateAfter before)).1 ∧
      lastVersion before ≤ read.version

/-- Fewer than `2 ^ 31` writes complete before the first read, and from each read
to the next. -/
def Spaced (reads : List (Read R W width)) : Prop :=
  ∀ before read after, reads = before ++ read :: after →
    read.version - lastVersion before < 2 ^ 31

/-- Concluding one more read gives the state after it. -/
theorem stateAfter_snoc (reads : List (Read R W width)) (read : Read R W width)
    (judged : read.code = (conclude (doubled read.version) (stateAfter reads)).1) :
    stateAfter (reads ++ [read]) = (conclude (doubled read.version) (stateAfter reads)).2 := by
  have prev : (stateAfter (reads ++ [read])).prevSeq =
      (conclude (doubled read.version) (stateAfter reads)).2.prevSeq := by
    simp [stateAfter]
  have once : (stateAfter (reads ++ [read])).hasReadOnce =
      (conclude (doubled read.version) (stateAfter reads)).2.hasReadOnce := by
    rw [conclude_received, ← judged]
    simp [stateAfter]
  cases shape : (conclude (doubled read.version) (stateAfter reads)).2 with
  | mk prevSeq hasReadOnce =>
    rw [shape] at prev once
    cases same : stateAfter (reads ++ [read]) with
    | mk before received =>
      rw [same] at prev once
      exact State.mk.injEq .. ▸ ⟨prev, once⟩

/-- Judged reads stay judged when later ones are left out. -/
theorem Judged.left {first second : List (Read R W width)} (judged : Judged (first ++ second)) :
    Judged first := by
  intro before item after split
  exact judged before item (after ++ second) (by simp [split])

/-- Spaced reads stay spaced when later ones are left out. -/
theorem Spaced.left {first second : List (Read R W width)} (spaced : Spaced (first ++ second)) :
    Spaced first := by
  intro before item after split
  exact spaced before item (after ++ second) (by simp [split])

/-- For spaced reads, a code of 0 means a newer version. -/
theorem success_iff_newer {reads : List (Read R W width)} {read : Read R W width}
    (judged : Judged (reads ++ [read])) (spaced : Spaced (reads ++ [read])) :
    read.code = .success ↔ lastVersion reads < read.version := by
  obtain ⟨code, ordered⟩ := judged reads read [] rfl
  have near : read.version - lastVersion reads < 2 ^ 31 := spaced reads read [] rfl
  rw [code, conclude_success_iff]
  have collide := doubled_eq_near ordered near
  simp only [stateAfter, ne_eq, collide]
  omega

/-- A reader has received something exactly when it has read a version at all, and
then the last message received belongs to the version last read. -/
theorem received_version (reads : List (Read R W width)) (judged : Judged reads)
    (spaced : Spaced reads) :
    (reads.any (fun read => read.code = .success) = true ↔ 0 < lastVersion reads) ∧
      ∀ last, (received reads).getLast? = some last → last.version = lastVersion reads := by
  induction reads using List.reverseRecOn with
  | nil => simp [received]
  | append_singleton reads read inductionHypothesis =>
    obtain ⟨anyEarlier, lastEarlier⟩ := inductionHypothesis judged.left spaced.left
    have newer := success_iff_newer judged spaced
    have ordered : lastVersion reads ≤ read.version := (judged reads read [] rfl).2
    by_cases success : read.code = .success
    · have later : lastVersion reads < read.version := newer.mp success
      constructor
      · simp [success]
        omega
      · intro last found
        have same : read = last := by simpa [received, success] using found
        simp [← same]
    · have unmoved : read.version = lastVersion reads := by
        have notLater := mt newer.mpr success
        omega
      constructor
      · simpa [success, unmoved] using anyEarlier
      · intro last found
        rw [lastVersion_snoc, unmoved]
        exact lastEarlier last (by simpa [received, success] using found)

/-- The two ways a spaced read can fail. -/
theorem failure_iff {reads : List (Read R W width)} {read : Read R W width}
    (judged : Judged (reads ++ [read])) (spaced : Spaced (reads ++ [read])) :
    (read.code = .eagain ↔
      read.version = lastVersion reads ∧ ∃ earlier ∈ reads, earlier.code = .success) ∧
    (read.code = .enomsg ↔ read.version = 0) := by
  obtain ⟨code, ordered⟩ := judged reads read [] rfl
  have near : read.version - lastVersion reads < 2 ^ 31 := spaced reads read [] rfl
  have collide := doubled_eq_near ordered near
  have once := (received_version reads judged.left spaced.left).1
  have everReceived : (stateAfter reads).hasReadOnce = true ↔
      ∃ earlier ∈ reads, earlier.code = .success := by
    simp [stateAfter]
  constructor
  · rw [code, conclude_eagain_iff, ← everReceived]
    constructor
    · rintro ⟨unmoved, nonzero | received⟩
      · have same : read.version = lastVersion reads := collide.mp unmoved
        refine ⟨same, once.mpr ?_⟩
        by_contra zero
        have first : read.version = 0 := by omega
        simp [first] at nonzero
      · exact ⟨collide.mp unmoved, received⟩
    · rintro ⟨same, received⟩
      exact ⟨collide.mpr same, Or.inr received⟩
  · rw [code, conclude_enomsg_iff]
    constructor
    · rintro ⟨unmoved, _, never⟩
      have same : read.version = lastVersion reads := collide.mp unmoved
      have none : ¬ 0 < lastVersion reads := by
        intro positive
        have received : (stateAfter reads).hasReadOnce = true := once.mpr positive
        simp [never] at received
      omega
    · intro zero
      refine ⟨collide.mpr (by omega), by simp [zero], ?_⟩
      have never : ¬ (stateAfter reads).hasReadOnce = true := by
        intro received
        have positive : 0 < lastVersion reads := once.mp received
        omega
      simpa using never

/-- The versions received are strictly increasing, and none exceeds the last. -/
theorem received_increasing (reads : List (Read R W width)) (judged : Judged reads)
    (spaced : Spaced reads) :
    ((received reads).map Read.version).Pairwise (· < ·) ∧
      ∀ read ∈ received reads, 0 < read.version ∧ read.version ≤ lastVersion reads := by
  induction reads using List.reverseRecOn with
  | nil => simp [received]
  | append_singleton reads read inductionHypothesis =>
    obtain ⟨increasing, bounded⟩ := inductionHypothesis judged.left spaced.left
    have ordered : lastVersion reads ≤ read.version := (judged reads read [] rfl).2
    by_cases success : read.code = .success
    · have later : lastVersion reads < read.version :=
        (success_iff_newer judged spaced).mp success
      have extended : received (reads ++ [read]) = received reads ++ [read] := by
        simp [received, success]
      rw [extended, lastVersion_snoc]
      constructor
      · rw [List.map_append, List.pairwise_append]
        refine ⟨increasing, List.pairwise_singleton _ _, ?_⟩
        intro earlier member newest found
        obtain ⟨item, among, rfl⟩ := List.mem_map.mp member
        obtain rfl : newest = read.version := by simpa using found
        exact Nat.lt_of_le_of_lt (bounded item among).2 later
      · intro item member
        rcases List.mem_append.mp member with earlier | newest
        · obtain ⟨positive, below⟩ := bounded item earlier
          exact ⟨positive, Nat.le_trans below ordered⟩
        · obtain rfl := List.mem_singleton.mp newest
          exact ⟨Nat.zero_lt_of_lt later, Nat.le_refl _⟩
    · have same : received (reads ++ [read]) = received reads := by simp [received, success]
      rw [same, lastVersion_snoc]
      refine ⟨increasing, ?_⟩
      intro item member
      obtain ⟨positive, below⟩ := bounded item member
      exact ⟨positive, Nat.le_trans below ordered⟩

/-- Entries of increasing versions are a subsequence of the writes. -/
theorem versions_sublist [Zero W] (writes : List (Entry W width)) (versions : List Nat)
    (increasing : versions.Pairwise (· < ·))
    (bounded : ∀ version ∈ versions, 0 < version ∧ version ≤ writes.length) :
    (versions.map (entryAfter writes)).Sublist writes := by
  have below : ∀ version ∈ versions, version - 1 < writes.length := by
    intro version member
    obtain ⟨positive, atMost⟩ := bounded version member
    omega
  have positions : (versions.pmap (fun version inside => (⟨version - 1, inside⟩ : Fin writes.length))
      below).Pairwise (· < ·) := by
    rw [List.pairwise_pmap]
    apply increasing.imp_of_mem
    intro first second firstMember secondMember ordered _ _
    have positive := (bounded first firstMember).1
    exact Fin.mk_lt_mk.mpr (by omega)
  have same : versions.map (entryAfter writes) =
      (versions.pmap (fun version inside => (⟨version - 1, inside⟩ : Fin writes.length)) below).map
        (fun position => writes[position]) := by
    apply List.ext_getElem (by simp)
    intro position inside _
    have listed : position < versions.length := by simpa using inside
    obtain ⟨positive, atMost⟩ := bounded versions[position] (List.getElem_mem _)
    obtain ⟨earlier, version⟩ : ∃ earlier, versions[position] = earlier + 1 :=
      ⟨_, (Nat.succ_pred_eq_of_pos positive).symm⟩
    have within : earlier < writes.length := by omega
    simp [version, entryAfter, List.getD, within]
  rw [same]
  exact List.map_getElem_sublist positions

section Runs

variable [DecidableEq R]

/-- A reader's state, pending copy and codes agree with its recorded reads. -/
structure Tracked (log : Log R W width) (system : System R W width) (name : R) : Prop where
  state : (system.readers name).state = stateAfter (log.readsOf name)
  pending : ∀ seq1 copy next, (system.readers name).phase = .copying seq1 copy next →
    lastVersion (log.readsOf name) ≤ log.version name
  judged : Judged (log.readsOf name)

/-- A step that returns nothing to a reader and neither changes its state nor
makes it load a number keeps it tracked. -/
theorem Tracked.extend {log later : Log R W width} {system next : System R W width} {name : R}
    (tracked : Tracked log system name) (reads : later.readsOf name = log.readsOf name)
    (state : (next.readers name).state = (system.readers name).state)
    (copies : ∀ seq1 copy index, (next.readers name).phase = .copying seq1 copy index →
      (∃ seq1 copy index, (system.readers name).phase = .copying seq1 copy index) ∧
        later.version name = log.version name) : Tracked later next name := by
  refine ⟨by rw [reads, state]; exact tracked.state, ?_, by rw [reads]; exact tracked.judged⟩
  intro seq1 copy index stands
  obtain ⟨⟨_, _, _, position⟩, version⟩ := copies seq1 copy index stands
  rw [reads, version]
  exact tracked.pending _ _ _ position

/-- The version last read is one that had been written. -/
theorem lastVersion_bound [Zero W] {log : Log R W width} (recorded : Recorded log) (name : R) :
    lastVersion (log.readsOf name) ≤ log.writes.length := by
  cases found : (log.readsOf name).getLast? with
  | none => simp [lastVersion, found]
  | some read =>
    have member : read ∈ log.reads := (List.mem_filter.mp (List.mem_of_getLast? found)).1
    simpa [lastVersion, found] using (recorded read member).1

/-- A read that returns is judged by the version it loaded and the state before it. -/
theorem Tracked.returned {log : Log R W width} {system : System R W width} {name : R}
    {seq1 : UInt32} {copy : Entry W width} {next : Nat} (tracked : Tracked log system name)
    (numbered : seq1 = doubled (log.version name))
    (stands : (system.readers name).phase = .copying seq1 copy next) :
    Tracked (observe log (.returned name (conclude seq1 (system.readers name).state).1 copy))
      (system.setReader name
        { phase := .idle, state := (conclude seq1 (system.readers name).state).2 }) name := by
  obtain ⟨read, recorded, code, version⟩ : ∃ read : Read R W width,
      (observe log (.returned name (conclude seq1 (system.readers name).state).1
        copy)).readsOf name = log.readsOf name ++ [read] ∧
      read.code = (conclude (doubled read.version) (stateAfter (log.readsOf name))).1 ∧
      read.version = log.version name := by
    refine ⟨_, by simp [Log.readsOf, observe, Log.record]; rfl, ?_, rfl⟩
    rw [← tracked.state, numbered]
  constructor
  · rw [recorded, stateAfter_snoc _ _ code, version, ← tracked.state, ← numbered]
    simp
  · simp
  · intro earlier item after split
    rw [recorded] at split
    rcases snoc_split split with ⟨rfl, rfl, -⟩ | ⟨rest, split⟩
    · rw [version]
      exact ⟨version ▸ code, tracked.pending _ _ _ stands⟩
    · exact tracked.judged earlier item rest split

/-- One live step keeps every reader tracked. -/
theorem tracked_step [Zero W] {log : Log R W width} {system next : System R W width}
    {event : Event R W width} (consistent : Consistent log system)
    (tracked : ∀ name, Tracked log system name) (effect : Effect system event next) (tested : R) :
    Tracked (observe log event) next tested := by
  have kept : ∀ {name : R} {reader : Reader W width} {later : Log R W width}, tested ≠ name →
      later.readsOf tested = log.readsOf tested → later.version tested = log.version tested →
      Tracked later (system.setReader name reader) tested := by
    intro name reader later other reads version
    apply (tracked tested).extend reads (by rw [setReader_other _ _ _ _ other])
    intro seq1 copy index stands
    rw [setReader_other _ _ _ _ other] at stands
    exact ⟨⟨_, _, _, stands⟩, version⟩
  cases effect with
  | called | loaded | raised | stored | completed =>
    exact (tracked tested).extend rfl rfl (fun _ _ _ stands => ⟨⟨_, _, _, stands⟩, rfl⟩)
  | readCalled name copy ready =>
    by_cases same : tested = name
    · subst same
      exact (tracked tested).extend rfl (by simp) (by simp)
    · exact kept same rfl rfl
  | spun name copy stands odd =>
    by_cases same : tested = name
    · subst same
      exact (tracked tested).extend rfl (by simp) (by simp [stands])
    · exact kept same rfl rfl
  | begun name copy stands even =>
    by_cases same : tested = name
    · subst same
      have reads : (observe log (.begun tested)).readsOf tested = log.readsOf tested := rfl
      refine ⟨by simpa [reads] using (tracked tested).state, ?_, (tracked tested).judged⟩
      intro _ _ _ _
      rw [reads]
      simpa [observe, Log.record] using lastVersion_bound consistent.recorded tested
    · exact kept same rfl (by simp [observe, Log.record, same])
  | copied name seq1 copy index inside stands =>
    by_cases same : tested = name
    · subst same
      exact (tracked tested).extend rfl (by simp) (fun _ _ _ _ => ⟨⟨_, _, _, stands⟩, rfl⟩)
    · exact kept same rfl rfl
  | retried name seq1 copy index finished moved stands =>
    by_cases same : tested = name
    · subst same
      exact (tracked tested).extend rfl (by simp) (by simp)
    · exact kept same rfl rfl
  | returned name seq1 copy index finished unmoved stands =>
    by_cases same : tested = name
    · subst same
      exact (tracked tested).returned (consistent.reader tested seq1 copy index stands).1 stands
    · refine kept same ?_ rfl
      have other : ¬ name = tested := fun equal => same equal.symm
      simp [Log.readsOf, observe, Log.record, other]

/-- Every reader is tracked throughout a run in which the writer never dies. -/
theorem live_run_tracked [Zero W] {events : List (Event R W width)} {final : System R W width}
    (run : Run LiveStep System.initial events final) (name : R) :
    Tracked (history events) final name := by
  induction run generalizing name with
  | refl =>
    refine ⟨rfl, ?_, ?_⟩
    · intro seq1 copy next stands
      cases stands
    · intro before read after split
      simp [Log.readsOf] at split
  | snoc events event state next run taken inductionHypothesis =>
    rw [history, observed_snoc]
    exact tracked_step (even_run_consistent (live_run_even run).1) inductionHypothesis
      (live_effect taken) name

/-- Delivery to one reader. In every interleaving with one writer, while fewer
than `2 ^ 31` writes complete before its first read and between its reads, and
fewer overlap any final attempt, judged when the number was loaded:
a read returns 0 exactly when something was written since the reader's previous
read, and hands back the newest entry; `EAGAIN` exactly when nothing was and a
message had been received, and hands back that message; `ENOMSG` exactly when
nothing was ever written. The entries received are a subsequence of the writes,
in order, and no write is received twice.

Proof: every code is the conclusion from the version read and the state after
the reads before it. Spaced versions collide only when equal, so the state's two
fields say whether the version moved and whether it ever did. -/
theorem delivery [Zero W] (events : List (Event R W width)) (final : System R W width)
    (run : Run LiveStep System.initial events final) (name : R)
    (spaced : Spaced ((history events).readsOf name))
    (short : ∀ read ∈ (history events).readsOf name, read.overlap < 2 ^ 31) :
    (∀ before read after, (history events).readsOf name = before ++ read :: after →
      (read.code = .success ↔ lastVersion before < read.version) ∧
      (read.code = .success → read.entry = entryAfter (history events).writes read.version) ∧
      (read.code = .eagain ↔
        read.version = lastVersion before ∧ ∃ earlier ∈ before, earlier.code = .success) ∧
      (read.code = .eagain →
        ∃ last, (received before).getLast? = some last ∧ read.entry = last.entry) ∧
      (read.code = .enomsg ↔ read.version = 0)) ∧
    ((received ((history events).readsOf name)).map Read.entry).Sublist (history events).writes ∧
    ((received ((history events).readsOf name)).map Read.version).Pairwise (· < ·) := by
  have tracked := live_run_tracked run name
  have consistent := even_run_consistent (live_run_even run).1
  have whole : ∀ read ∈ (history events).readsOf name,
      read.entry = entryAfter (history events).writes read.version := by
    intro read member
    exact (consistent.recorded read (List.mem_filter.mp member).1).2.2 (short read member)
  obtain ⟨increasing, bounded⟩ := received_increasing _ tracked.judged spaced
  refine ⟨?_, ?_, increasing⟩
  · intro before read after split
    have listed : (history events).readsOf name = (before ++ [read]) ++ after := by simp [split]
    have judged : Judged (before ++ [read]) := (listed ▸ tracked.judged).left
    have spacedHere : Spaced (before ++ [read]) := (listed ▸ spaced).left
    have entry := whole read (by simp [split])
    obtain ⟨again, never⟩ := failure_iff judged spacedHere
    refine ⟨success_iff_newer judged spacedHere, fun _ => entry, again, ?_, never⟩
    intro failed
    obtain ⟨unmoved, earlier, member, success⟩ := again.mp failed
    have among : earlier ∈ received before := List.mem_filter.mpr ⟨member, by simp [success]⟩
    obtain ⟨last, found⟩ : ∃ last, (received before).getLast? = some last :=
      ⟨_, List.getLast?_eq_some_getLast (List.ne_nil_of_mem among)⟩
    have version : last.version = lastVersion before :=
      (received_version before judged.left spacedHere.left).2 last found
    have kept : last ∈ before := (List.mem_filter.mp (List.mem_of_getLast? found)).1
    refine ⟨last, found, ?_⟩
    rw [entry, whole last (by simp [split, kept]), version, unmoved]
  · have atMost : ∀ version ∈ (received ((history events).readsOf name)).map Read.version,
        0 < version ∧ version ≤ (history events).writes.length := by
      intro version member
      obtain ⟨read, among, rfl⟩ := List.mem_map.mp member
      obtain ⟨positive, below⟩ := bounded read among
      exact ⟨positive, Nat.le_trans below (lastVersion_bound consistent.recorded name)⟩
    have entries : (received ((history events).readsOf name)).map Read.entry =
        ((received ((history events).readsOf name)).map Read.version).map
          (entryAfter (history events).writes) := by
      rw [List.map_map]
      apply List.map_congr_left
      intro read member
      exact whole read (List.mem_filter.mp member).1
    rw [entries]
    exact versions_sublist _ _ increasing atMost

/-- Outside a write the memory of a run is the one its completed writes leave when
they are made one after another. -/
theorem live_run_written [Zero W] {events : List (Event R W width)} {final : System R W width}
    (run : Run LiveStep System.initial events final) (outside : final.writer = .idle) :
    final.lock = written (history events).writes := by
  obtain ⟨evenRun, deathless⟩ := live_run_even run
  have writer := (even_run_consistent evenRun).writer
  simp only [WriterConsistent, outside] at writer
  rcases writer with quiet | wedged
  · obtain ⟨seq, entry⟩ := written_state (history events).writes
    have sameSeq := quiet.1.trans seq.symm
    have sameEntry := quiet.2.trans entry.symm
    cases memory : final.lock with
    | mk seq entry =>
      cases sequential : written (history events).writes with
      | mk seq' entry' =>
        rw [memory, sequential] at sameSeq sameEntry
        exact Shared.mk.injEq .. ▸ ⟨sameSeq, sameEntry⟩
  · have died : 0 < (history events).deaths := wedged.2.1
    omega

end Runs

/-- A reader finds no message, then one, then nothing new. -/
def threeReads : List (Action Unit Nat 1) :=
  [.read () ![0], .reader (), .reader (), .reader (),
    .write ![5], .writer, .writer, .writer, .writer,
    .read () ![0], .reader (), .reader (), .reader (),
    .read () ![0], .reader (), .reader (), .reader ()]

/-- While fewer than `2 ^ 31` writes complete altogether, reads are spaced. -/
theorem spaced_of_few (reads : List (Read R W width))
    (few : ∀ read ∈ reads, read.version < 2 ^ 31) : Spaced reads := by
  intro before read after split
  have bound : read.version < 2 ^ 31 := few read (by simp [split])
  omega

/-- The three reads return `ENOMSG`, 0 and `EAGAIN`. -/
theorem delivery_three : ∃ events final,
    Run LiveStep (System.initial : System Unit Nat 1) events final ∧
    ((history events).readsOf ()).map Read.code = [.enomsg, .success, .eagain] ∧
    (∀ before read after, (history events).readsOf () = before ++ read :: after →
      (read.code = .success ↔ lastVersion before < read.version) ∧
      (read.code = .success → read.entry = entryAfter (history events).writes read.version) ∧
      (read.code = .eagain ↔
        read.version = lastVersion before ∧ ∃ earlier ∈ before, earlier.code = .success) ∧
      (read.code = .eagain →
        ∃ last, (received before).getLast? = some last ∧ read.entry = last.entry) ∧
      (read.code = .enomsg ↔ read.version = 0)) ∧
    ((received ((history events).readsOf ())).map Read.entry).Sublist (history events).writes ∧
    ((received ((history events).readsOf ())).map Read.version).Pairwise (· < ·) := by
  obtain ⟨⟨events, final⟩, executed⟩ : ∃ result, execute advance
      (System.initial : System Unit Nat 1) threeReads = some result := ⟨_, rfl⟩
  have outcome : (execute advance (System.initial : System Unit Nat 1) threeReads).map
      (fun result => (((history result.1).readsOf ()).map Read.code,
        ((history result.1).readsOf ()).map (fun read => (read.version, read.overlap)))) =
      some ([.enomsg, .success, .eagain], [(0, 0), (1, 0), (1, 0)]) := rfl
  simp only [executed, Option.map_some, Option.some.injEq, Prod.mk.injEq] at outcome
  obtain ⟨codes, numbers⟩ := outcome
  have small : ∀ read ∈ (history events).readsOf (), read.version < 2 ^ 31 ∧ read.overlap < 2 ^ 31 := by
    intro read member
    have among : (read.version, read.overlap) ∈
        ((history events).readsOf ()).map (fun read => (read.version, read.overlap)) :=
      List.mem_map.mpr ⟨read, member, rfl⟩
    rw [numbers] at among
    simp only [List.mem_cons, Prod.mk.injEq, List.not_mem_nil, or_false] at among
    omega
  have run := execute_run advance _ final threeReads events executed
  exact ⟨events, final, run, codes, delivery events final run ()
    (spaced_of_few _ (fun read member => (small read member).1))
    (fun read member => (small read member).2)⟩

end Tyndall.SeqLock
