import Mathlib.Data.List.GetD
import Tyndall.Ipc.SeqLockAlone
import Tyndall.Ipc.Snapshot

/-!
# How many writes a read survives

A read that is overtaken by `2 ^ 31` writes finds the number it began with, and
hands back words of two entries. Fewer writes never do that, so `2 ^ 31` is not
only enough for the safety of a read but exact.
-/

namespace Tyndall.SeqLock

open Counter Runs

variable {R W : Type} {width : Nat} [DecidableEq R]

/-- What a write reports that nothing interrupts. -/
def writeEvents (seq : UInt32) (entry : Entry W width) : List (Event R W width) :=
  [.called entry, .loaded seq, .raised] ++ (List.range width).map .stored ++ [.completed entry]

/-- The stores of a write one after the other. -/
theorem stores_run (system : System R W width) (entry : Entry W width) (seq1 : UInt32)
    (stands : system.writer = .storing entry seq1 0) (count : Nat) (inside : count ≤ width) :
    Run LiveStep system ((List.range count).map .stored)
      { system with
        lock := { system.lock with
          entry := fun i => if i.val < count then entry i else system.lock.entry i },
        writer := .storing entry seq1 count } := by
  induction count with
  | zero =>
    have unchanged : { system with
        lock := { system.lock with
          entry := fun i => if i.val < 0 then entry i else system.lock.entry i },
        writer := .storing entry seq1 0 } = system := by
      simp [← stands]
    rw [unchanged]
    exact .refl
  | succ count inductionHypothesis =>
    have more : count < width := inside
    rw [List.range_succ, List.map_append]
    refine (inductionHypothesis (Nat.le_of_lt more)).append (.single ⟨.writer, ?_⟩)
    simp only [advance, advanceWriter, more, ↓reduceDIte, Option.bind_eq_bind, Option.bind_some,
      Option.pure_def, Shared.store, Option.some.injEq, Prod.mk.injEq, System.mk.injEq,
      Shared.mk.injEq, true_and, and_true]
    funext i
    by_cases newest : i = ⟨count, more⟩
    · simp [newest]
    · have distinct : i.val ≠ count := fun equal => newest (Fin.ext equal)
      have same : i.val < count + 1 ↔ i.val < count := by omega
      rw [Function.update_of_ne newest]
      simp only [same]

/-- A write that nothing interrupts. -/
theorem write_run (system : System R W width) (entry : Entry W width)
    (ready : system.writer = .idle) :
    Run LiveStep system (writeEvents system.lock.seq entry)
      { system with lock := write system.lock entry } := by
  let seq1 := seqLockWriteBegin system.lock.seq
  have called : Run LiveStep system [.called entry] { system with writer := .beginning entry } :=
    .single ⟨.write entry, by simp [advance, ready]⟩
  have loaded : Run LiveStep { system with writer := .beginning entry } [.loaded system.lock.seq]
      { system with writer := .raising entry seq1 } :=
    .single ⟨.writer, by simp [advance, advanceWriter, seq1]⟩
  have raised : Run LiveStep { system with writer := .raising entry seq1 } [.raised]
      { system with lock := { system.lock with seq := seq1 }, writer := .storing entry seq1 0 } :=
    .single ⟨.writer, by simp [advance, advanceWriter]⟩
  have stored := stores_run { system with
    lock := { system.lock with seq := seq1 }, writer := .storing entry seq1 0 } entry seq1 rfl
    width (Nat.le_refl _)
  have completed : Run LiveStep { system with
      lock := { seq := seq1, entry := fun i => if i.val < width then entry i else system.lock.entry i },
      writer := .storing entry seq1 width } [.completed entry]
      { system with lock := write system.lock entry } := by
    refine .single ⟨.writer, ?_⟩
    simp [advance, advanceWriter, write, seq1, ready]
  exact (((called.append loaded).append raised).append stored).append completed

/-- What is recorded of it. -/
theorem write_record (log : Log R W width) (seq : UInt32) (entry : Entry W width) :
    ∃ clock, observed observe log (writeEvents seq entry) = { log with
      clock := clock, begun := log.begun + 1, ended := log.ended + 1,
      writes := log.writes ++ [entry], sinceDeath := log.sinceDeath + 1 } := by
  have stores : ∀ (indices : List Nat) (log : Log R W width), ∃ clock,
      observed observe log (indices.map .stored) = { log with clock := clock } := by
    intro indices
    induction indices with
    | nil => exact fun log => ⟨log.clock, rfl⟩
    | cons index rest inductionHypothesis =>
      intro log
      obtain ⟨clock, recorded⟩ := inductionHypothesis (observe log (.stored index))
      exact ⟨clock, recorded⟩
  obtain ⟨clock, recorded⟩ := stores (List.range width)
    (observed observe log [.called entry, .loaded seq, .raised])
  refine ⟨clock + 1, ?_⟩
  rw [writeEvents, observed_snoc, observed_append, recorded]
  rfl

/-- Writes one after the other, and what is recorded of them. -/
theorem writes_run (entries : List (Entry W width)) (system : System R W width)
    (ready : system.writer = .idle) :
    ∃ events, Run LiveStep system events { system with lock := entries.foldl write system.lock } ∧
      ∀ log : Log R W width, ∃ clock since, observed observe log events = { log with
        clock := clock, begun := log.begun + entries.length, ended := log.ended + entries.length,
        writes := log.writes ++ entries, sinceDeath := since } := by
  induction entries generalizing system with
  | nil => exact ⟨[], .refl, fun log => ⟨log.clock, log.sinceDeath, by simp⟩⟩
  | cons entry rest inductionHypothesis =>
    obtain ⟨events, run, record⟩ :=
      inductionHypothesis { system with lock := write system.lock entry } ready
    refine ⟨_, (write_run system entry ready).append run, ?_⟩
    intro log
    obtain ⟨clock, first⟩ := write_record log system.lock.seq entry
    obtain ⟨later, since, second⟩ := record _
    refine ⟨later, since, ?_⟩
    rw [observed_append, first, second]
    simp only [List.append_assoc, List.singleton_append, List.length_cons, Log.mk.injEq, true_and,
      and_true]
    omega

/-- The rest of a copy, word by word, and what is recorded of it. -/
theorem copies_run (system : System R W width) (name : R) (seq1 : UInt32) (copy : Entry W width)
    (next : Nat) (stands : (system.readers name).phase = .copying seq1 copy next) (count : Nat)
    (inside : next + count ≤ width) :
    ∃ events, Run LiveStep system events (system.setReader name { system.readers name with
        phase := .copying seq1 (fun i => if next ≤ i.val ∧ i.val < next + count
          then system.lock.entry i else copy i) (next + count) }) ∧
      ∀ log : Log R W width, ∃ clock, observed observe log events = { log with clock := clock } := by
  induction count with
  | zero =>
    refine ⟨[], ?_, fun log => ⟨log.clock, rfl⟩⟩
    have none_yet : (fun i : Fin width => if next ≤ i.val ∧ i.val < next + 0
        then system.lock.entry i else copy i) = copy :=
      funext fun i => if_neg (by omega)
    have unchanged : system.setReader name { system.readers name with
        phase := .copying seq1 (fun i => if next ≤ i.val ∧ i.val < next + 0
          then system.lock.entry i else copy i) (next + 0) } = system := by
      rw [none_yet, Nat.add_zero, ← stands]
      simp [System.setReader]
    rw [unchanged]
    exact .refl
  | succ count inductionHypothesis =>
    obtain ⟨events, run, record⟩ := inductionHypothesis (by omega)
    have more : next + count < width := by omega
    refine ⟨events ++ [.copied name (next + count)], run.append (.single ⟨.reader name, ?_⟩), ?_⟩
    · simp only [advance, advanceReader, setReader_same, setReader_lock, more, ↓reduceDIte,
        Option.bind_eq_bind, Option.bind_some, Option.pure_def, setReader_setReader,
        Option.some.injEq, Prod.mk.injEq, true_and, Nat.add_assoc]
      congr 3
      funext i
      by_cases newest : i = ⟨next + count, more⟩
      · simp [newest]
      · have distinct : i.val ≠ next + count := fun equal => newest (Fin.ext equal)
        have same : (next ≤ i.val ∧ i.val < next + (count + 1)) ↔
            (next ≤ i.val ∧ i.val < next + count) := by omega
        rw [Function.update_of_ne newest]
        simp only [same]
    · intro log
      obtain ⟨clock, recorded⟩ := record log
      refine ⟨clock + 1, ?_⟩
      rw [observed_snoc, recorded]
      rfl

/-- A fresh copy with its first word. -/
def firstWord [Zero W] (lock : Shared W width) (wide : 0 < width) : Entry W width :=
  Function.update (fun _ => 0) ⟨0, wide⟩ (lock.entry ⟨0, wide⟩)

/-- A read up to its first word. -/
theorem begin_run [Zero W] (system : System R W width) (name : R)
    (fresh : system.readers name = {}) (even : system.lock.seq &&& 1 = 0) (wide : 0 < width) :
    Run LiveStep system [.readCalled name, .begun name, .copied name 0] (system.setReader name
      { phase := .copying system.lock.seq (firstWord system.lock wide) 1 }) := by
  have called : Run LiveStep system [.readCalled name]
      (system.setReader name { phase := .spinning (fun _ => 0) }) :=
    .single ⟨.read name (fun _ => 0), by simp [advance, fresh]⟩
  have begun : Run LiveStep (system.setReader name { phase := .spinning (fun _ => 0) }) [.begun name]
      (system.setReader name { phase := .copying system.lock.seq (fun _ => 0) 0 }) :=
    .single ⟨.reader name, by simp [advance, advanceReader, seqLockReadBegin, even]⟩
  have copied : Run LiveStep
      (system.setReader name { phase := .copying system.lock.seq (fun _ => 0) 0 }) [.copied name 0]
      (system.setReader name
        { phase := .copying system.lock.seq (firstWord system.lock wide) 1 }) :=
    .single ⟨.reader name, by simp [advance, advanceReader, wide, firstWord]⟩
  exact (called.append begun).append copied

/-- A read from its second word on that finds the number it began with. -/
theorem finish_run (system : System R W width) (name : R) (copy : Entry W width)
    (stands : system.readers name = { phase := .copying system.lock.seq copy 1 }) (wide : 0 < width) :
    ∃ events final, Run LiveStep system events final ∧ ∀ log : Log R W width,
      ∃ clock read, observed observe log events =
          { log with clock := clock, reads := log.reads ++ [read] } ∧
        read.overlap = log.begun - log.endedAt name ∧
        read.entry = fun i => if 1 ≤ i.val then system.lock.entry i else copy i := by
  obtain ⟨events, run, record⟩ := copies_run system name system.lock.seq copy 1 (by rw [stands])
    (width - 1) (by omega)
  have all : ∀ i : Fin width, (1 ≤ i.val ∧ i.val < 1 + (width - 1)) ↔ 1 ≤ i.val := by
    intro i
    have inside := i.isLt
    omega
  simp only [all] at run
  have finished : ¬ 1 + (width - 1) < width := by omega
  refine ⟨_, system.setReader name { phase := .idle, state := (conclude system.lock.seq {}).2 },
    run.snoc _ (.returned name (conclude system.lock.seq {}).1
      (fun i => if 1 ≤ i.val then system.lock.entry i else copy i)) _ _ ⟨.reader name, ?_⟩, ?_⟩
  · simp [advance, advanceReader, stands, finished, seqLockReadRetry]
  · intro log
    obtain ⟨clock, recorded⟩ := record log
    refine ⟨clock + 1, {
      reader := name, code := (conclude system.lock.seq {}).1,
      entry := (fun i => if 1 ≤ i.val then system.lock.entry i else copy i),
      version := log.version name, overlap := log.begun - log.endedAt name,
      called := log.calledAt name, returned := clock }, ?_, rfl, rfl⟩
    rw [observed_snoc, recorded]
    rfl

/-- A read that as many writes overtake as make the number wrap hands back the first
word of the entry it began with, and the others of the last. -/
theorem torn_read [Zero W] (name : R) (before during : List (Entry W width))
    (wraps : during.length % 2 ^ 31 = 0) (wide : 0 < width) :
    ∃ events final read, Run LiveStep (System.initial : System R W width) events final ∧
      (history events).writes = before ++ during ∧ read ∈ (history events).reads ∧
      read.overlap = during.length ∧
      read.entry = fun i => if 1 ≤ i.val then entryAfter (before ++ during) (before ++ during).length i
        else entryAfter before before.length i := by
  obtain ⟨seq, entry⟩ := written_state before
  obtain ⟨seqAfter, entryNow⟩ := written_state (before ++ during)
  have unmoved : (written (before ++ during)).seq = (written before).seq := by
    rw [seqAfter, seq, doubled_eq_iff, List.length_append]
    omega
  obtain ⟨first, wrote, recordFirst⟩ := writes_run before (System.initial : System R W width) rfl
  have begun := begin_run ({ System.initial with lock := written before } : System R W width) name rfl
    (by rw [seq]; exact doubled_low_bit _) wide
  obtain ⟨second, overtook, recordSecond⟩ := writes_run during
    (({ System.initial with lock := written before } : System R W width).setReader name
      { phase := .copying (written before).seq (firstWord (written before) wide) 1 }) rfl
  obtain ⟨third, final, finished, recordThird⟩ := finish_run
    ({ ({ System.initial with lock := written before } : System R W width).setReader name
      { phase := .copying (written before).seq (firstWord (written before) wide) 1 } with
        lock := written (before ++ during) }) name (firstWord (written before) wide)
    (by rw [unmoved]; simp [System.setReader]) wide
  have latest : during.foldl write (written before) = written (before ++ during) := by
    rw [written, written, List.foldl_append]
  rw [setReader_lock, latest] at overtook
  have run := ((wrote.append begun).append overtook).append finished
  obtain ⟨clock, since, recorded⟩ := recordFirst {}
  let reading : Log R W width :=
    observed observe (observed observe {} first) [.readCalled name, .begun name, .copied name 0]
  have counts : reading.writes = before ∧ reading.begun = before.length ∧
      reading.endedAt name = before.length := by
    simp only [reading, recorded]
    exact ⟨by simp [observed, observe, Log.record], by simp [observed, observe, Log.record],
      by simp [observed, observe, Log.record]⟩
  obtain ⟨later, sinceLater, recordedLater⟩ := recordSecond reading
  obtain ⟨last, read, recordedLast, overlap, copied⟩ :=
    recordThird (observed observe reading second)
  have whole : history (first ++ [.readCalled name, .begun name, .copied name 0] ++ second ++ third) =
      observed observe (observed observe reading second) third := by
    rw [history, observed_append, observed_append, observed_append]
  rw [recordedLater] at whole recordedLast overlap
  rw [recordedLast] at whole
  refine ⟨_, final, read, run, ?_, ?_, ?_, ?_⟩
  · rw [whole]
    simp [counts.1]
  · rw [whole]
    simp
  · rw [overlap]
    simp [counts.2.1, counts.2.2]
  · rw [copied]
    funext i
    split
    · rw [← entryNow]
    · next first =>
      have inside : i.val = 0 := by
        have bounded : ¬ 1 ≤ i.val := first
        omega
      have zero : i = ⟨0, wide⟩ := Fin.ext inside
      rw [zero, firstWord, Function.update_self, entry]

omit [DecidableEq R] in
/-- Where every entry repeats one word, so does what is in place after any number of
them. -/
theorem entryAfter_repeats [Zero W] (writes : List (Entry W width))
    (repeats : ∀ entry ∈ writes, ∀ i j, entry i = entry j) (count : Nat) (i j : Fin width) :
    entryAfter writes count i = entryAfter writes count j := by
  cases count with
  | zero => rfl
  | succ count =>
    by_cases inside : count < writes.length
    · simp only [entryAfter, List.getD_eq_getElem _ _ inside]
      exact repeats _ (List.getElem_mem inside) i j
    · simp only [entryAfter, List.getD_eq_default _ _ (Nat.le_of_not_lt inside)]

/-- The safety of reads ends exactly there. For entries of two words or more over
at least two different words, and at least one reader: every read of every run with
one writer that overlaps no more than a given number of writes hands back the entry
after some number of writes if and only if that number is less than `2 ^ 31`.

Proof: fewer writes are no danger by the consistency of the record. A read that
`2 ^ 31` writes of one word overtake, and that began on an entry of another, hands
back both words, and no entry of that run has both. -/
theorem overlap_threshold [Zero W] [Nonempty R] (wide : 2 ≤ width) (word other : W)
    (different : word ≠ other) (bound : Nat) :
    (∀ (events : List (Event R W width)) final, Run LiveStep System.initial events final →
        ∀ read ∈ (history events).reads, read.overlap ≤ bound →
          ∃ count, read.entry = entryAfter (history events).writes count) ↔
      bound < 2 ^ 31 := by
  constructor
  · intro safe
    by_contra large
    obtain ⟨name⟩ := ‹Nonempty R›
    obtain ⟨fewer, size⟩ : ∃ fewer, 2 ^ 31 = fewer + 1 := ⟨2 ^ 31 - 1, by omega⟩
    let before : List (Entry W width) := [fun _ => word]
    let during : List (Entry W width) := List.replicate fewer (fun _ => other) ++ [fun _ => other]
    have length : during.length = 2 ^ 31 := by simp [during, size]
    obtain ⟨events, final, read, run, writes, member, overlap, torn⟩ :=
      torn_read name before during (by rw [length, Nat.mod_self]) (by omega)
    obtain ⟨count, whole⟩ := safe events final run read member (by rw [overlap, length]; omega)
    have first : read.entry ⟨0, by omega⟩ = word := by
      rw [torn]
      rfl
    have second : read.entry ⟨1, by omega⟩ = other := by
      have latest : entryAfter (before ++ during) (before ++ during).length = fun _ => other := by
        rw [← List.append_assoc, List.length_append, List.length_singleton, entryAfter_last]
      rw [torn, latest]
      exact if_pos (Nat.le_refl 1)
    have repeats := entryAfter_repeats (before ++ during) (by
      intro entry among
      have constant : entry = (fun _ => word) ∨ entry = (fun _ => other) := by
        rcases List.mem_append.mp among with earlier | later
        · exact .inl (List.mem_singleton.mp earlier)
        · rcases List.mem_append.mp later with repeated | last
          · exact .inr (List.eq_of_mem_replicate repeated)
          · exact .inr (List.mem_singleton.mp last)
      rcases constant with rfl | rfl
      · exact fun _ _ => rfl
      · exact fun _ _ => rfl) count ⟨0, by omega⟩ ⟨1, by omega⟩
    rw [← writes, ← whole, first, second] at repeats
    exact different repeats
  · intro small events final run read member short
    have consistent := even_run_consistent (live_run_even run).1
    exact ⟨read.version, (consistent.recorded read member).2.2 (Nat.lt_of_le_of_lt short small)⟩

/-- For a pair of numbers and one reader, `2 ^ 31` writes are too many. -/
theorem overlap_threshold_pair : ¬ ∀ (events : List (Event Unit Nat 2)) final,
    Run LiveStep System.initial events final → ∀ read ∈ (history events).reads,
      read.overlap ≤ 2 ^ 31 → ∃ count, read.entry = entryAfter (history events).writes count :=
  fun safe => absurd
    ((overlap_threshold (Nat.le_refl 2) 1 2 (by decide) (2 ^ 31)).mp safe) (Nat.lt_irrefl _)

end Tyndall.SeqLock
