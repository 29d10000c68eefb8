import Tyndall.Ipc.BarrierReads

/-!
# Every one of the four barriers is needed

Without one of the barriers some run hands back an entry that nobody wrote. Where a
barrier of `write` is missing, a word arrives before the odd number or after the
even one, and a reader finds an even number beside a part of the entry. Where a
barrier of `read` is missing, a word is loaded before the first load of the number
or after the second, and a whole write comes in between.
-/

namespace Tyndall.SeqLock.Barriers

open Counter Runs Windows

variable {R V W : Type} {width : Nat} [DecidableEq R] [DecidableEq V]

/-- What a schedule of the machine leads to, with what is recorded of it. -/
abbrev Reaches (setting : Setting R V) (before after : Log R V W width × System R V W width) :
    Prop := Leads (Step setting) (observe setting.sees) before after

section Writing

variable (setting : Setting R V)

/-- The writer issues what it has to issue. -/
theorem issues (log : Log R V W width) (system : System R V W width) (entry : Entry W width)
    (todo : List (Item (Store W width))) :
    Reaches setting (log, { system with writer := .issuing entry todo })
      (log, { system.issue todo with writer := .issuing entry [] }) := by
  induction todo generalizing system with
  | nil =>
    have nothing : system.issue [] = system := by simp [System.issue]
    rw [nothing]
    exact .refl _
  | cons item todo inductionHypothesis =>
    have issued : Step setting { system with writer := .issuing entry (item :: todo) } .issued
        { system.issue [item] with writer := .issuing entry todo } := ⟨.writer, rfl⟩
    have first : Reaches setting (log, { system with writer := .issuing entry (item :: todo) })
        (log, { system.issue [item] with writer := .issuing entry todo }) := .single issued
    have rest := inductionHypothesis (system.issue [item])
    have all : (system.issue [item]).issue todo = system.issue (item :: todo) := by
      simp [System.issue, ← drained_append]
    rw [all] at rest
    exact first.trans rest

/-- A whole call of `write` leaves its stores to come. -/
theorem writes (log : Log R V W width) (system : System R V W width) (entry : Entry W width)
    (ready : system.writer = .idle) :
    Reaches setting (log, system) ({ log with writes := log.writes ++ [entry] },
      system.issue (stores setting.fences (seqLockWriteBegin system.own.seq) entry)) := by
  generalize program : stores setting.fences (seqLockWriteBegin system.own.seq) entry = todo
  have called : Step setting system (.called entry) { system with writer := .beginning entry } :=
    ⟨.write entry, by simp [advance, ready]⟩
  have loaded : Step setting { system with writer := .beginning entry } .loaded
      { system with writer := .issuing entry todo } := by
    rw [← program]
    exact ⟨.writer, rfl⟩
  have wrote : Step setting { system.issue todo with writer := .issuing entry [] } (.wrote entry)
      (system.issue todo) := ⟨.writer, by simp [advance, advanceWriter, System.issue, ready]⟩
  exact ((Leads.single called).trans (.single loaded)).trans
    ((issues setting _ system entry todo).trans (.single wrote))

/-- One store arrives. -/
theorem arrives (log : Log R V W width) {system : System R V W width} {view : V} {before : Nat}
    {store : Store W width} {left : List (Item (Store W width))}
    (taken : perform Store.place (system.pending view) before = some (store, left)) :
    Reaches setting (log, system)
      (observe setting.sees log (if store.completes then .completed view else .arrived view),
        system.arrive view store left) :=
  .single ⟨.arrive view before, by simp [advance, taken]⟩

/-- Everything that is pending for a view arrives there, in program order. What is
recorded changes in what is visible there alone. -/
theorem arrives_all (log : Log R V W width) (system : System R V W width) (view : V)
    (items : List (Item (Store W width)))
    (pending : settled (system.pending view) = settled items) :
    ∃ visible after, Reaches setting (log, system) ({ log with visible := visible }, after) ∧
      after.views view = drained Store.apply (system.views view) items ∧
      after.readers = system.readers := by
  induction items generalizing log system with
  | nil => exact ⟨log.visible, system, .refl _, rfl, rfl⟩
  | cons item rest inductionHypothesis =>
    cases item with
    | barrier => exact inductionHypothesis log system pending
    | access store =>
      have taken : perform Store.place (system.pending view) 0 = some (store, rest) := by
        rw [perform_settled pending, perform_first]
      obtain ⟨visible, after, reached, shown, readers⟩ := inductionHypothesis
        (observe setting.sees log (if store.completes then .completed view else .arrived view))
        (system.arrive view store rest) (by simp [System.arrive])
      refine ⟨visible, after, ?_, ?_, readers⟩
      · refine (arrives setting log taken).trans ?_
        cases completes : store.completes
        · simpa [observe, completes] using reached
        · simpa [observe, completes] using reached
      · rw [shown, drained_access]
        simp [System.arrive]

end Writing

section Reading

/-- A copy once words of a memory have been loaded into it. -/
def loadedFrom (lock : Shared W width) (indices : List (Fin width)) (copy : Entry W width) :
    Entry W width :=
  fun index => if index ∈ indices then lock.entry index else copy index

variable (setting : Setting R V) (log : Log R V W width) {system : System R V W width} {name : R}
  {window left : List (Item (Load width))} {seq1 seq2 : UInt32} {copy : Entry W width}

/-- The call of `read`. -/
theorem calls_read (copy : Entry W width) (ready : (system.readers name).phase = .idle) :
    Reaches setting (log, system)
      (log, system.setPhase name (.loading (loads setting.fences) 0 0 copy)) :=
  .single (step_called setting copy ready)

/-- One load happens. -/
theorem happens {before : Nat} {load : Load width}
    (stands : (system.readers name).phase = .loading window seq1 seq2 copy)
    (taken : perform Load.place window before = some (load, left)) :
    Reaches setting (log, system)
      (observe setting.sees log
        (load.happen setting.fences (system.views (setting.sees name)) name left seq1 seq2 copy).1,
      system.setPhase name (load.happen (R := R) (V := V) setting.fences
        (system.views (setting.sees name)) name left seq1 seq2 copy).2) :=
  .single (step_happened setting stands taken)

/-- The first load finds an even number. -/
theorem begins {before : Nat}
    (stands : (system.readers name).phase = .loading window seq1 seq2 copy)
    (taken : perform Load.place window before = some (.first, left))
    (even : (system.views (setting.sees name)).seq &&& 1 = 0) :
    Reaches setting (log, system)
      ({ log with
        version := Function.update log.version name (log.visible (setting.sees name)) },
      system.setPhase name
        (.loading left (system.views (setting.sees name)).seq seq2 copy)) := by
  have happened := happens setting log stands taken
  simpa only [Load.happen, seqLockReadBegin, even, ne_eq, not_true_eq_false, ↓reduceIte, observe]
    using happened

/-- A word is loaded. -/
theorem copies {before : Nat} {index : Fin width}
    (stands : (system.readers name).phase = .loading window seq1 seq2 copy)
    (taken : perform Load.place window before = some (.word index, left)) :
    Reaches setting (log, system)
      (log, system.setPhase name (.loading left seq1 seq2
        (Function.update copy index ((system.views (setting.sees name)).entry index)))) :=
  happens setting log stands taken

/-- A word is loaded that the copy has already. -/
theorem copies_same {before : Nat} {index : Fin width}
    (stands : (system.readers name).phase = .loading window seq1 seq2 copy)
    (taken : perform Load.place window before = some (.word index, left))
    (same : (system.views (setting.sees name)).entry index = copy index) :
    Reaches setting (log, system) (log, system.setPhase name (.loading left seq1 seq2 copy)) := by
  have copied := copies setting log stands taken
  rwa [same, Function.update_eq_self] at copied

/-- The number is loaded again. -/
theorem reloads {before : Nat}
    (stands : (system.readers name).phase = .loading window seq1 seq2 copy)
    (taken : perform Load.place window before = some (.second, left)) :
    Reaches setting (log, system)
      ({ log with
        overlap := Function.update log.overlap name
          (log.visible (setting.sees name) - log.version name) },
      system.setPhase name
        (.loading left seq1 (system.views (setting.sees name)).seq copy)) :=
  happens setting log stands taken

omit [DecidableEq R] [DecidableEq V] in
/-- Loading one word and then others is loading all of them. -/
theorem loadedFrom_cons (lock : Shared W width) (index : Fin width) (indices : List (Fin width))
    (copy : Entry W width) :
    loadedFrom lock indices (Function.update copy index (lock.entry index)) =
      loadedFrom lock (index :: indices) copy := by
  funext tested
  by_cases same : tested = index
  · subst same
    simp [loadedFrom]
  · simp [loadedFrom, same]

/-- Words at the head of a window are loaded one after the other. -/
theorem copies_all (indices : List (Fin width)) (rest : List (Item (Load width)))
    (stands : (system.readers name).phase = .loading window seq1 seq2 copy)
    (items : settled window = settled (accesses (indices.map .word) ++ rest)) :
    ∃ window', settled window' = settled rest ∧ Reaches setting (log, system)
      (log, system.setPhase name (.loading window' seq1 seq2
        (loadedFrom (system.views (setting.sees name)) indices copy))) := by
  induction indices generalizing system window copy with
  | nil =>
    refine ⟨window, items, ?_⟩
    have same : loadedFrom (system.views (setting.sees name)) [] copy = copy :=
      funext fun index => if_neg (List.not_mem_nil (a := index))
    rw [same, setPhase_self stands]
    exact .refl _
  | cons index indices inductionHypothesis =>
    have taken : perform Load.place window 0 =
        some (.word index, accesses (indices.map .word) ++ rest) := by
      rw [perform_settled items]
      rfl
    have copied := copies setting log stands taken
    obtain ⟨window', done, reached⟩ := inductionHypothesis (setPhase_phase system name
      (.loading (accesses (indices.map .word) ++ rest) seq1 seq2
        (Function.update copy index ((system.views (setting.sees name)).entry index)))) rfl
    simp only [setPhase_setPhase, setPhase_views, loadedFrom_cons] at reached
    exact ⟨window', done, copied.trans reached⟩

/-- When everything is loaded and the two numbers are the same, the read returns. -/
theorem returns (stands : (system.readers name).phase = .loading window seq1 seq1 copy)
    (finished : settled window = []) :
    ∃ after, Reaches setting (log, system) after ∧ after.1.writes = log.writes ∧
      ∃ read ∈ after.1.reads, read.overlap = log.overlap name ∧ read.entry = copy := by
  have returned := step_returned setting stands finished
  exact ⟨_, .single returned, rfl, _, List.mem_append_right _ (List.mem_singleton_self _), rfl, rfl⟩

/-- The rest of an attempt while nothing arrives: the words that are left are loaded,
and then the number, which has not moved. -/
theorem ends (indices : List (Fin width)) (present : Bool)
    (stands : (system.readers name).phase = .loading window seq1 seq2 copy)
    (items : settled window =
      settled (accesses (indices.map .word) ++ (fence present ++ [.access .second])))
    (unmoved : (system.views (setting.sees name)).seq = seq1)
    (current : log.visible (setting.sees name) = log.version name) :
    ∃ after, Reaches setting (log, system) after ∧ after.1.writes = log.writes ∧
      ∃ read ∈ after.1.reads, read.overlap = 0 ∧
        read.entry = loadedFrom (system.views (setting.sees name)) indices copy := by
  obtain ⟨window', rest, words⟩ := copies_all setting log indices _ stands items
  have taken : perform Load.place window' 0 = some (.second, []) := by
    rw [perform_settled rest]
    cases present <;> rfl
  have reloaded := reloads setting log (setPhase_phase system name (.loading window' seq1 seq2
    (loadedFrom (system.views (setting.sees name)) indices copy))) taken
  simp only [setPhase_views, setPhase_setPhase, unmoved, current, Nat.sub_self] at reloaded
  obtain ⟨after, returned, same, read, among, overlap, entry⟩ := returns setting
    { log with overlap := Function.update log.overlap name 0 }
    (setPhase_phase system name (.loading [] seq1 seq1
      (loadedFrom (system.views (setting.sees name)) indices copy))) rfl
  refine ⟨after, (words.trans reloaded).trans returned, same, read, among, ?_, entry⟩
  rw [overlap]
  exact Function.update_self ..

/-- An attempt from its first load on, while nothing arrives at an even number. -/
theorem attempts (indices : List (Fin width)) (begin present : Bool)
    (stands : (system.readers name).phase = .loading (.access .first :: (fence begin ++
      (accesses (indices.map .word) ++ (fence present ++ [.access .second])))) seq1 seq2 copy)
    (even : (system.views (setting.sees name)).seq &&& 1 = 0) :
    ∃ after, Reaches setting (log, system) after ∧ after.1.writes = log.writes ∧
      ∃ read ∈ after.1.reads, read.overlap = 0 ∧
        read.entry = loadedFrom (system.views (setting.sees name)) indices copy := by
  have begun := begins setting log stands (perform_first ..) even
  have items : settled (fence begin ++ (accesses (indices.map Load.word) ++
      (fence present ++ [.access .second]))) =
        settled (accesses (indices.map Load.word) ++ (fence present ++ [.access .second])) := by
    cases begin <;> rfl
  obtain ⟨after, ended, result⟩ := ends setting
    { log with version := Function.update log.version name (log.visible (setting.sees name)) }
    indices present (setPhase_phase system name
      (.loading _ (system.views (setting.sees name)).seq seq2 copy)) items rfl (by simp)
  exact ⟨after, begun.trans ended, result⟩

/-- A whole read while nothing arrives hands back what the view shows. -/
theorem reads_view (ready : (system.readers name).phase = .idle)
    (even : (system.views (setting.sees name)).seq &&& 1 = 0) (copy : Entry W width) :
    ∃ after, Reaches setting (log, system) after ∧ after.1.writes = log.writes ∧
      ∃ read ∈ after.1.reads, read.overlap = 0 ∧
        read.entry = (system.views (setting.sees name)).entry := by
  have called := calls_read setting log copy ready
  obtain ⟨after, attempted, writes, read, among, overlap, entry⟩ := attempts setting log
    (List.finRange width) setting.fences.readBegin setting.fences.readRetry
    (setPhase_phase system name (.loading (loads setting.fences) 0 0 copy)) even
  refine ⟨after, called.trans attempted, writes, read, among, overlap, ?_⟩
  rw [entry]
  funext index
  exact if_pos (List.mem_finRange index)

end Reading

section Tears

/-- Some run hands back an entry that nobody wrote, although too few writes became
visible during the read for the number to wrap. -/
def Tears (setting : Setting R V) (W : Type) [Zero W] (width : Nat) : Prop :=
  ∃ (events : List (Event R V W width)) (final : System R V W width),
    Run (Step setting) System.initial events final ∧
      ∃ read ∈ (history setting.sees events).reads, read.overlap < 2 ^ 31 ∧
        ∀ version ≤ (history setting.sees events).writes.length,
          read.entry ≠ entryAfter (history setting.sees events).writes version

variable [Zero W] {setting : Setting R V} {name : R} {more : Nat} {word : W}

/-- After a single write of equal words, an entry with two different ones is torn. -/
theorem tears_of {after : Log R V W (more + 2) × System R V W (more + 2)}
    {read : Read R W (more + 2)} (reached : Reaches setting ({}, System.initial) after)
    (writes : after.1.writes = [fun _ => word]) (among : read ∈ after.1.reads)
    (overlap : read.overlap = 0) (torn : read.entry 0 ≠ read.entry 1) : Tears setting W (more + 2) := by
  obtain ⟨events, run, recorded⟩ := reached
  refine ⟨events, after.2, run, read, ?_, by omega, ?_⟩
  · rw [history, recorded]
    exact among
  · intro version _ same
    rw [history, recorded, writes] at same
    apply torn
    rw [same]
    rcases version with _ | _ | version <;> rfl

/-- The words of an entry but the first. -/
def otherWords (more : Nat) : List (Fin (more + 2)) := (List.finRange (more + 1)).map Fin.succ

/-- The first word of an entry comes first. -/
theorem finRange_words : List.finRange (more + 2) = 0 :: otherWords more := List.finRange_succ

theorem first_not_other : (0 : Fin (more + 2)) ∉ otherWords more := by
  simp [otherWords, Fin.succ_ne_zero]

theorem second_other : (1 : Fin (more + 2)) ∈ otherWords more :=
  List.mem_map.mpr ⟨0, List.mem_finRange 0, rfl⟩

omit [Zero W] in
/-- The stores of an entry begin with its first word. -/
theorem entryStores_words (entry : Entry W (more + 2)) :
    entryStores entry =
      .word 0 (entry 0) :: (otherWords more).map fun index => .word index (entry index) := by
  rw [entryStores, finRange_words, List.map_cons]

/-- The only write so far, issued but not arrived anywhere. -/
theorem writes_first (setting : Setting R V) (word : W) : Reaches setting ({}, (System.initial : System R V W (more + 2)))
    ({ writes := [fun _ => word] }, System.initial.issue (stores setting.fences 1 fun _ => word)) :=
  writes setting {} System.initial (fun _ => word) rfl

/-- Where a view shows an even number beside a part of the write, a reader who looks
through it tears. -/
theorem tears_of_view (name : R) {log : Log R V W (more + 2)} {system : System R V W (more + 2)}
    (reached : Reaches setting ({}, System.initial) (log, system))
    (written : log.writes = [fun _ => word]) (ready : (system.readers name).phase = .idle)
    (even : (system.views (setting.sees name)).seq &&& 1 = 0)
    (torn : (system.views (setting.sees name)).entry 0 ≠
      (system.views (setting.sees name)).entry 1) : Tears setting W (more + 2) := by
  obtain ⟨after, read, writes, result, among, overlap, entry⟩ :=
    reads_view setting log ready even (fun _ => 0)
  exact tears_of (reached.trans read) (writes.trans written) among overlap (by rwa [entry])

/-- The stores of the words but the first. -/
def otherStores (more : Nat) (word : W) : List (Store W (more + 2)) :=
  (otherWords more).map fun index => .word index word

omit [Zero W] in
/-- They store elsewhere than in the number. -/
theorem otherStores_place (value : UInt32) :
    ∀ store ∈ otherStores more word, store.place ≠ (Store.seq value : Store W (more + 2)).place := by
  intro store among
  obtain ⟨index, -, rfl⟩ := List.mem_map.mp among
  simp [Store.place]

/-- Without the barrier in `seq_lock_write_begin` a word arrives before the number is
odd. -/
theorem tears_writeBegin (name : R) (nonzero : word ≠ 0)
    (missing : setting.fences.writeBegin = false) : Tears setting W (more + 2) := by
  have taken : perform Store.place ((System.initial.issue
      (stores setting.fences 1 fun _ => word) : System R V W (more + 2)).pending
        (setting.sees name)) 1 =
      some (.word 0 word, .access (.seq 1) :: (accesses (otherStores more word) ++
        (fence setting.fences.writeEnd ++ [.access (.seq (seqLockWriteEnd 1))]))) := by
    simp only [System.issue, System.initial, stores, missing, entryStores_words]
    exact perform_past [Store.seq 1] _ (by simp [Store.place])
  have reached := (writes_first setting word).trans (arrives setting _ taken)
  refine tears_of_view name reached rfl rfl ?_ ?_
  · simp [Store.apply, System.issue, System.initial, created]
  · simpa [Store.apply, System.issue, System.initial, created] using nonzero

/-- Without the barrier in `seq_lock_write_end` the number is even before every word
has arrived. -/
theorem tears_writeEnd (name : R) (nonzero : word ≠ 0) (missing : setting.fences.writeEnd = false) :
    Tears setting W (more + 2) := by
  have odd : perform Store.place ((System.initial.issue
      (stores setting.fences 1 fun _ => word) : System R V W (more + 2)).pending
        (setting.sees name)) 0 =
      some (.seq 1, fence setting.fences.writeBegin ++ (.access (.word 0 word) ::
        (accesses (otherStores more word) ++ [.access (.seq 2)]))) := by
    simp only [System.issue, System.initial, stores, missing, entryStores_words]
    exact perform_first ..
  have first : ∀ system : System R V W (more + 2), perform Store.place
      ((system.arrive (setting.sees name) (.seq 1) (fence setting.fences.writeBegin ++
        (.access (.word 0 word) :: (accesses (otherStores more word) ++
          [.access (.seq 2)])))).pending (setting.sees name)) 0 =
      some (.word 0 word, accesses (otherStores more word) ++ [.access (.seq 2)]) := by
    intro system
    rw [arrive_pending]
    cases setting.fences.writeBegin <;> rfl
  have even : ∀ system : System R V W (more + 2), perform Store.place
      ((system.arrive (setting.sees name) (.word 0 word) (accesses (otherStores more word) ++
          [.access (.seq 2)])).pending (setting.sees name)) (otherStores more word).length =
      some (.seq 2, accesses (otherStores more word) ++ []) := by
    intro system
    rw [arrive_pending]
    exact perform_past _ [] (otherStores_place 2)
  have reached := (((writes_first setting word).trans (arrives setting _ odd)).trans (arrives setting _ (first _))).trans
    (arrives setting _ (even _))
  refine tears_of_view name reached rfl rfl ?_ ?_
  · rw [arrive_views]
    exact (by decide : (2 : UInt32) &&& 1 = 0)
  · simpa [Store.apply, System.issue, System.initial, created] using nonzero

/-- The point a reader of a fresh topic has reached when a whole write comes in
between. -/
theorem writes_between (setting : Setting R V) (log : Log R V W (more + 2)) (name : R)
    (phase : Phase W (more + 2)) (word : W) :
    ∃ visible after, Reaches setting (log, System.initial.setPhase name phase)
        ({ log with writes := log.writes ++ [fun _ => word], visible := visible }, after) ∧
      after.views (setting.sees name) = { seq := 2, entry := fun _ => word } ∧
      (after.readers name).phase = phase := by
  have written := writes setting log (System.initial.setPhase name phase)
    (fun _ => word) rfl
  obtain ⟨visible, after, arrived, views, readers⟩ := arrives_all setting
    { log with writes := log.writes ++ [fun _ => word] }
    ((System.initial.setPhase name phase).issue (stores setting.fences 1 fun _ => word))
    (setting.sees name) (stores setting.fences 1 fun _ => word) rfl
  refine ⟨visible, after, written.trans arrived, ?_, ?_⟩
  · rw [views]
    exact drained_stores setting.fences (created : Shared W (more + 2)) fun _ => word
  · rw [readers]
    exact setPhase_phase System.initial name phase

/-- A reader of a fresh topic that loads a word before the number. -/
theorem copies_early (name : R) (missing : setting.fences.readBegin = false) :
    Reaches setting ({}, (System.initial : System R V W (more + 2)))
      ({}, System.initial.setPhase name (.loading (.access .first ::
        (accesses ((otherWords more).map .word) ++
          (fence setting.fences.readRetry ++ [.access .second]))) 0 0 fun _ => 0)) := by
  have called : Reaches setting ({}, (System.initial : System R V W (more + 2)))
      ({}, System.initial.setPhase name (.loading (loads setting.fences) 0 0 fun _ => (0 : W))) :=
    calls_read setting {} _ rfl
  have taken : perform Load.place (loads setting.fences : List (Item (Load (more + 2)))) 1 =
      some (.word 0, .access .first :: (accesses ((otherWords more).map .word) ++
        (fence setting.fences.readRetry ++ [.access .second]))) := by
    simp only [loads, missing, finRange_words]
    exact perform_past [Load.first] _ (by simp [Load.place])
  have copied := copies_same setting {} (setPhase_phase System.initial name
    (.loading (loads setting.fences) 0 0 fun _ => (0 : W))) taken rfl
  rw [setPhase_setPhase] at copied
  exact called.trans copied

/-- A reader of a fresh topic that loads the number again before the words but the
first. -/
theorem reloads_early (name : R) (missing : setting.fences.readRetry = false) :
    ∃ log : Log R V W (more + 2), log.writes = [] ∧ log.overlap name = 0 ∧
      Reaches setting ({}, System.initial) (log, System.initial.setPhase name
        (.loading (accesses ((otherWords more).map .word)) 0 0 fun _ => 0)) := by
  have called : Reaches setting ({}, (System.initial : System R V W (more + 2)))
      ({}, System.initial.setPhase name (.loading (loads setting.fences) 0 0 fun _ => (0 : W))) :=
    calls_read setting {} _ rfl
  have begun := begins setting {} (setPhase_phase (System.initial : System R V W (more + 2)) name
    (.loading (loads setting.fences) 0 0 fun _ => (0 : W))) (perform_first ..)
    (by decide : (0 : UInt32) &&& 1 = 0)
  have first : perform Load.place (fence setting.fences.readBegin ++
      (accesses ((List.finRange (more + 2)).map Load.word) ++
        (fence setting.fences.readRetry ++ [.access .second]))) 0 =
      some (.word 0, accesses ((otherWords more).map .word) ++ [.access .second]) := by
    simp only [missing, finRange_words]
    cases setting.fences.readBegin <;> rfl
  have copied := copies_same setting { version := Function.update (fun _ => 0) name 0 }
    (setPhase_phase (System.initial : System R V W (more + 2)) name
      (.loading _ 0 0 fun _ => (0 : W))) first rfl
  have second : perform Load.place (accesses ((otherWords more).map Load.word) ++
      [.access .second]) ((otherWords more).map Load.word).length =
      some (.second, accesses ((otherWords more).map .word) ++ []) :=
    perform_past _ [] (by simp [Load.place])
  have reloaded := reloads setting { version := Function.update (fun _ => 0) name 0 }
    (setPhase_phase (System.initial : System R V W (more + 2)) name
      (.loading _ 0 0 fun _ => (0 : W))) second
  rw [setPhase_setPhase] at begun copied reloaded
  rw [List.append_nil] at reloaded
  exact ⟨_, rfl, by simp, ((called.trans begun).trans copied).trans reloaded⟩

/-- Without the barrier in `seq_lock_read_begin` a whole write comes between the load
of a word and the load of the number. -/
theorem tears_readBegin (name : R) (nonzero : word ≠ 0)
    (missing : setting.fences.readBegin = false) : Tears setting W (more + 2) := by
  obtain ⟨visible, between, written, shown, stands⟩ := writes_between setting {} name
    (.loading (.access .first :: (accesses ((otherWords more).map .word) ++
      (fence setting.fences.readRetry ++ [.access .second]))) 0 0 fun _ => 0) word
  have even : (between.views (setting.sees name)).seq &&& 1 = 0 := by
    rw [shown]
    exact (by decide : (2 : UInt32) &&& 1 = 0)
  obtain ⟨after, attempted, writes, read, among, overlap, entry⟩ := attempts setting
    { writes := [fun _ => word], visible := visible } (otherWords more) false
    setting.fences.readRetry stands even
  refine tears_of (((copies_early name missing).trans written).trans attempted) writes among
    overlap ?_
  rw [entry, shown]
  simpa [loadedFrom, first_not_other, second_other] using nonzero.symm

/-- Without the barrier in `seq_lock_read_retry` a whole write comes between the second
load of the number and the load of a word. -/
theorem tears_readRetry (name : R) (nonzero : word ≠ 0)
    (missing : setting.fences.readRetry = false) : Tears setting W (more + 2) := by
  obtain ⟨log, none, short, early⟩ : ∃ log : Log R V W (more + 2), log.writes = [] ∧
      log.overlap name = 0 ∧ Reaches setting ({}, System.initial) (log,
        System.initial.setPhase name
          (.loading (accesses ((otherWords more).map .word)) 0 0 fun _ => 0)) :=
    reloads_early name missing
  obtain ⟨visible, between, written, shown, stands⟩ := writes_between setting log name
    (.loading (accesses ((otherWords more).map .word)) 0 0 fun _ => 0) word
  obtain ⟨window, finished, copied⟩ := copies_all setting
    { log with writes := log.writes ++ [fun _ => word], visible := visible } (otherWords more) []
    stands (by rw [List.append_nil])
  obtain ⟨after, returned, writes, read, among, overlap, entry⟩ := returns setting
    { log with writes := log.writes ++ [fun _ => word], visible := visible }
    (setPhase_phase between name _) finished
  refine tears_of (((early.trans written).trans copied).trans returned) (by rw [writes, none]; rfl)
    among (overlap.trans short) ?_
  rw [entry, shown]
  simpa [loadedFrom, first_not_other, second_other] using nonzero.symm

/-- The four barriers are exactly what the sequence lock needs. With an entry of two
words or more, every read of every run, of fewer than `2 ^ 31` writes that became
visible while it loaded, hands back an entry that was written if and only if no
barrier is missing. -/
theorem barriers_exact (setting : Setting R V) (name : R) (width : Nat) (several : 1 < width)
    (word : W) (nonzero : word ≠ 0) :
    (∀ (events : List (Event R V W width)) (final : System R V W width),
      Run (Step setting) System.initial events final →
        ∀ read ∈ (history setting.sees events).reads, read.overlap < 2 ^ 31 →
          ∃ version ≤ (history setting.sees events).writes.length,
            read.entry = entryAfter (history setting.sees events).writes version) ↔
      setting.fences = {} := by
  obtain ⟨more, rfl⟩ : ∃ more, width = more + 2 := ⟨width - 2, by omega⟩
  constructor
  · intro whole
    have sound : ¬ Tears setting W (more + 2) := by
      rintro ⟨events, final, run, read, among, short, torn⟩
      obtain ⟨version, available, same⟩ := whole events final run read among short
      exact torn version available same
    have writeBegin : setting.fences.writeBegin = true := by
      by_contra missing
      exact sound (tears_writeBegin name nonzero (Bool.eq_false_iff.mpr missing))
    have writeEnd : setting.fences.writeEnd = true := by
      by_contra missing
      exact sound (tears_writeEnd name nonzero (Bool.eq_false_iff.mpr missing))
    have readBegin : setting.fences.readBegin = true := by
      by_contra missing
      exact sound (tears_readBegin name nonzero (Bool.eq_false_iff.mpr missing))
    have readRetry : setting.fences.readRetry = true := by
      by_contra missing
      exact sound (tears_readRetry name nonzero (Bool.eq_false_iff.mpr missing))
    calc setting.fences = ⟨setting.fences.writeBegin, setting.fences.writeEnd,
          setting.fences.readBegin, setting.fences.readRetry⟩ := rfl
      _ = {} := by rw [writeBegin, writeEnd, readBegin, readRetry]
  · intro all events final run read among short
    obtain ⟨fences, sees⟩ := setting
    obtain rfl : fences = {} := all
    have right := (consistent_run run).reads read among
    exact ⟨read.version, right.available, right.whole short⟩

end Tears

/-- A reader that reloads the number too early, in a memory shared by all. -/
theorem barriers_exact_early :
    ¬ ∀ (events : List (Event Bool Unit Nat 2)) (final : System Bool Unit Nat 2),
      Run (Step { fences := { readRetry := false }, sees := fun _ => () }) System.initial
        events final →
      ∀ read ∈ (history (fun _ => ()) events).reads, read.overlap < 2 ^ 31 →
        ∃ version ≤ (history (fun _ => ()) events).writes.length,
          read.entry = entryAfter (history (fun _ => ()) events).writes version := by
  intro whole
  have complete := (barriers_exact { fences := { readRetry := false }, sees := fun _ => () } true 2
    (by decide) (1 : Nat) (by decide)).mp whole
  exact absurd complete (by decide)

end Tyndall.SeqLock.Barriers
