import Tyndall.Ipc.God

/-!
# When god exits

A process that has been waited for is lost until its entry is marked dead. If a
SIGCHLD stands for several children, all but the last are lost for ever, and so is
a child that an interrupt keeps from being marked: their entries stay marked alive.
On the way out such an entry cannot be signalled, and `god` exits before the shared
memory is removed.
-/

namespace Tyndall.God

open Runs

variable {n : Nat}

/-- What is recorded of a run: the pids that cannot be signalled though no entry was
marked dead for them, those that were signalled, whether SIGCHLD is ignored, which pid
an interrupt kept from being marked alive, whether the shared memory was removed, and
how often each entry was forked. -/
structure Log (n : Nat) where
  lost : List Nat := []
  signalled : List Nat := []
  ignores : Bool := false
  unmarked : Option Nat := none
  cleaned : Bool := false
  forks : Fin n → Nat := fun _ => 0

/-- Record an event. A pid is lost once its process is waited for, until its entry is
marked dead, and also when the process exits on its own after SIGCHLD is ignored. -/
def observe (log : Log n) : Event n → Log n
  | .forked index _ => { log with forks := Function.update log.forks index (log.forks index + 1) }
  | .reaped pid => { log with lost := log.lost ++ [pid] }
  | .marked pid => { log with lost := log.lost.filter (· ≠ pid) }
  | .interrupted unmarked => { log with unmarked := unmarked }
  | .ignored => { log with ignores := true }
  | .killed pid => { log with signalled := log.signalled ++ [pid] }
  | .died pid =>
      { log with lost :=
          if log.ignores ∧ pid ∉ log.signalled ∧ log.unmarked ≠ some pid then log.lost ++ [pid]
          else log.lost }
  | .cleaned => { log with cleaned := true }
  | .notForked | .installed | .delivered | .found _ | .unknown | .recorded | .spent | .failed _
  | .skipped | .terminated => log

/-- The record of a whole run. -/
abbrev history (events : List (Event n)) : Log n := observed observe {} events

/-- What holds of the table and the processes alone: pids are given out in order, an
entry that is alive has one, and no two entries share one. -/
structure Table (children : Fin n → Child) (processes : Nat → Life) (next : Nat) : Prop where
  positive : 0 < next
  numbered : ∀ index, (children index).pid < next
  named : ∀ index, (children index).alive = true → (children index).pid ≠ 0
  distinct : ∀ index other, (children index).pid = (children other).pid →
    (children index).pid ≠ 0 → index = other
  present : ∀ pid, processes pid ≠ .absent → pid ≠ 0 ∧ pid < next

/-- An empty table. -/
theorem table_initial (respawn : Fin n → Int) :
    Table (System.initial respawn).children (System.initial respawn).processes 1 :=
  ⟨Nat.one_pos, fun _ => Nat.one_pos, fun _ alive => by simp [System.initial] at alive,
    fun _ _ _ nonzero => absurd rfl nonzero, fun _ present => absurd rfl present⟩

section Tables

variable {children : Fin n → Child} {processes : Nat → Life} {next : Nat}

/-- A new process takes the next pid. -/
theorem Table.fork (table : Table children processes next) :
    Table children (Function.update processes next .running) (next + 1) := by
  refine ⟨Nat.succ_pos _, fun index => Nat.lt_succ_of_lt (table.numbered index), table.named,
    table.distinct, ?_⟩
  intro pid present
  by_cases same : pid = next
  · exact ⟨by have := table.positive; omega, by omega⟩
  · rw [Function.update_of_ne same] at present
    obtain ⟨nonzero, below⟩ := table.present pid present
    exact ⟨nonzero, Nat.lt_succ_of_lt below⟩

/-- A process that exists changes. -/
theorem Table.process (table : Table children processes next) {pid : Nat} (life : Life)
    (exists_ : processes pid ≠ .absent) :
    Table children (Function.update processes pid life) next := by
  refine ⟨table.positive, table.numbered, table.named, table.distinct, ?_⟩
  intro other present
  by_cases same : other = pid
  · rw [same]
    exact table.present pid exists_
  · rw [Function.update_of_ne same] at present
    exact table.present other present

/-- An entry is replaced by one with its pid. -/
theorem Table.keep (table : Table children processes next) (index : Fin n) (child : Child)
    (pid : child.pid = (children index).pid)
    (named : child.alive = true → (children index).pid ≠ 0) :
    Table (Function.update children index child) processes next := by
  have pids : ∀ other, (Function.update children index child other).pid = (children other).pid := by
    intro other
    by_cases same : other = index
    · rw [same, Function.update_self, pid]
    · rw [Function.update_of_ne same]
  refine ⟨table.positive, ?_, ?_, ?_, table.present⟩
  · intro other
    rw [pids]
    exact table.numbered other
  · intro other alive
    rw [pids]
    by_cases same : other = index
    · subst same
      rw [Function.update_self] at alive
      exact named alive
    · rw [Function.update_of_ne same] at alive
      exact table.named other alive
  · intro first second
    rw [pids, pids]
    exact table.distinct first second

/-- An entry is given a pid that no entry has. -/
theorem Table.rename (table : Table children processes next) (index : Fin n) (child : Child)
    (below : child.pid < next) (nonzero : child.pid ≠ 0)
    (unused : ∀ other, (children other).pid ≠ child.pid) :
    Table (Function.update children index child) processes next := by
  refine ⟨table.positive, ?_, ?_, ?_, table.present⟩
  · intro other
    by_cases same : other = index
    · simpa [same] using below
    · simpa [same] using table.numbered other
  · intro other alive
    by_cases same : other = index
    · simpa [same] using nonzero
    · simp only [Function.update_of_ne same] at alive ⊢
      exact table.named other alive
  · intro first second shared used
    by_cases here : first = index
    · by_cases there : second = index
      · rw [here, there]
      · simp only [here, Function.update_self, Function.update_of_ne there] at shared
        exact absurd shared.symm (unused second)
    · by_cases there : second = index
      · simp only [there, Function.update_self, Function.update_of_ne here] at shared
        exact absurd shared (unused first)
      · simp only [Function.update_of_ne here, Function.update_of_ne there] at shared used
        exact table.distinct first second shared used

end Tables

/-- An entry that is marked alive has a pid. -/
def Held (children : Fin n → Child) (pid : Nat) : Prop :=
  ∃ index, (children index).pid = pid ∧ (children index).alive = true

/-- Replacing an entry that is dead takes no pid away. -/
theorem Held.replace {children : Fin n → Child} {pid : Nat} (held : Held children pid)
    {index : Fin n} (dead : (children index).alive = false) (child : Child) :
    Held (Function.update children index child) pid := by
  obtain ⟨other, here, alive⟩ := held
  have apart : other ≠ index := by
    rintro rfl
    rw [alive] at dead
    exact absurd dead (by decide)
  exact ⟨other, by rwa [Function.update_of_ne apart], by rwa [Function.update_of_ne apart]⟩

/-- What holds where `god` stands. -/
def Standing (signalled : List Nat) (system : System n) : Prop :=
  match system.point with
  | .starting next => ∀ index : Fin n, next ≤ index → (system.children index).alive = false
  | .reaping (some (pid, _)) => system.processes pid = .absent ∧ pid < system.next
  | .marking index _ => system.processes (system.children index).pid = .absent
  | .respawning index => (system.children index).alive = false
  | .recording index pid =>
      (system.children index).alive = false ∧ pid ≠ 0 ∧ pid < system.next ∧
        ∀ other, (system.children other).pid ≠ pid
  | .raising index =>
      (system.children index).alive = false ∧ (system.children index).pid ≠ 0
  | .killing next => ∀ index : Fin n, index < next → (system.children index).alive = true →
      (system.children index).pid ∈ signalled
  | .cleaning => ∀ index, (system.children index).alive = true →
      (system.children index).pid ∈ signalled
  | .exited status => status = sigint → ∀ index, (system.children index).alive = true →
      (system.children index).pid ∈ signalled
  | .entering _ | .paused | .reaping none | .spending _ | .leaving _ | .terminated => True

/-- Where `child_handler` is not running nothing is said. -/
theorem standing_home (signalled : List Nat) {system : System n}
    (stands : system.point = .paused ∨ system.point = .leaving true) :
    Standing signalled system := by
  rcases stands with stands | stands <;> simp [Standing, stands]

/-- The books are kept: every process is that of an entry which is alive, or of one
that is being forked or was when an interrupt came. -/
structure Books (log : Log n) (system : System n) : Prop where
  table : Table system.children system.processes system.next
  owned : ∀ pid, system.processes pid ≠ .absent → Held system.children pid ∨
    system.unmarked = some pid ∨ log.unmarked = some pid
  unnoted : system.point.deaf = false → log.unmarked = none
  leaves : system.point.departs = true → system.leaving = true
  standing : Standing log.signalled system

/-- The books of a table that nothing has been forked for. -/
theorem books_initial (respawn : Fin n → Int) : Books {} (System.initial respawn) :=
  ⟨table_initial respawn, fun _ present => absurd rfl present, fun _ => rfl,
    fun departs => absurd departs (by simp [System.initial, Point.departs]), fun _ _ => rfl⟩

/-- While `child_handler` may run every process is held by an entry, except one that is
being forked. -/
theorem Books.held {log : Log n} {system : System n} (books : Books log system)
    (running : system.point.deaf = false) (marked : system.unmarked = none) {pid : Nat}
    (present : system.processes pid ≠ .absent) : Held system.children pid := by
  obtain held | forking | noted := books.owned pid present
  · exact held
  · exact absurd (marked.symm.trans forking) (by simp)
  · exact absurd ((books.unnoted running).symm.trans noted) (by simp)

/-- `god` moves on and changes nothing else. -/
theorem Books.move {log later : Log n} {system : System n} (books : Books log system)
    (point : Point n) (pending : Bool) (marked : system.unmarked = none)
    (same : later.unmarked = log.unmarked)
    (noted : point.deaf = false → system.point.deaf = false)
    (leaves : point.departs = true → system.leaving = true)
    (standing : Standing later.signalled { system with pending := pending, point := point }) :
    Books later { system with pending := pending, point := point } := by
  refine ⟨books.table, ?_, ?_, leaves, standing⟩
  · intro pid present
    obtain held | forking | noted := books.owned pid present
    · exact .inl held
    · exact absurd (marked.symm.trans forking) (by simp)
    · exact .inr (.inr (same.trans noted))
  · intro runs
    exact same.trans (books.unnoted (noted runs))

/-- `god` moves on where `child_handler` may run, to a place outside `exit_handler`. -/
theorem Books.onward {log later : Log n} {system : System n} (books : Books log system)
    (point : Point n) (pending : Bool) (marked : system.unmarked = none)
    (same : later.unmarked = log.unmarked) (running : system.point.deaf = false)
    (stays : point.departs = false)
    (standing : Standing later.signalled { system with pending := pending, point := point }) :
    Books later { system with pending := pending, point := point } := by
  refine books.move point pending marked same (fun _ => running) ?_ standing
  intro departs
  exact absurd (stays.symm.trans departs) (by decide)

/-- `god` moves on in `exit_handler`, where `child_handler` runs no more. -/
theorem Books.depart {log later : Log n} {system : System n} (books : Books log system)
    (point : Point n) (pending : Bool) (marked : system.unmarked = none)
    (same : later.unmarked = log.unmarked) (leaves : system.point.departs = true)
    (deaf : point.deaf = true)
    (standing : Standing later.signalled { system with pending := pending, point := point }) :
    Books later { system with pending := pending, point := point } := by
  refine books.move point pending marked same ?_ (fun _ => books.leaves leaves) standing
  intro runs
  exact absurd (deaf.symm.trans runs) (by decide)

/-- Replacing an entry by one that is as alive under its pid takes no pid away. -/
theorem Held.keep {children : Fin n → Child} {pid : Nat} (held : Held children pid)
    {index : Fin n} {child : Child} (same : child.pid = (children index).pid)
    (alive : (children index).alive = true → child.alive = true) :
    Held (Function.update children index child) pid := by
  obtain ⟨other, here, lives⟩ := held
  by_cases replaced : other = index
  · subst replaced
    exact ⟨other, by simpa [same] using here, by simpa using alive lives⟩
  · exact ⟨other, by rwa [Function.update_of_ne replaced], by rwa [Function.update_of_ne replaced]⟩

/-- One step keeps the books. -/
theorem books_step {log : Log n} {system next : System n} {event : Event n}
    (books : Books log system) (effect : Effect system event next) :
    Books (observe log event) next := by
  have standing := books.standing
  cases effect with
  | forked position inside stands =>
    simp only [Standing, stands] at standing
    have running : system.point.deaf = false := by simp [stands, Point.deaf]
    have dead := standing ⟨position, inside⟩ (Nat.le_refl _)
    have unused : ∀ other, (system.children other).pid ≠ system.next :=
      fun other => Nat.ne_of_lt (books.table.numbered other)
    refine ⟨books.table.fork.rename _ _ (Nat.lt_succ_self _)
      (Nat.pos_iff_ne_zero.mp books.table.positive) unused, ?_, ?_,
      fun departs => absurd departs (by simp [Point.departs]), ?_⟩
    · intro pid present
      by_cases same : pid = system.next
      · exact .inl ⟨⟨position, inside⟩, by simp [System.setChild, same], by simp [System.setChild]⟩
      · have held := books.held running (by simp [System.unmarked, stands])
          (by simpa [System.setChild, System.fork, same] using present)
        exact .inl (held.replace dead _)
    · exact fun _ => books.unnoted running
    · intro index after
      have apart : index ≠ ⟨position, inside⟩ := by
        rintro rfl
        exact absurd after (Nat.not_succ_le_self _)
      simpa [System.setChild, System.fork, apart] using standing index (Nat.le_of_succ_le after)
  | notForked position inside stands =>
    simp only [Standing, stands] at standing
    refine books.onward _ _ (by simp [System.unmarked, stands]) rfl
      (by simp [stands, Point.deaf]) rfl ?_
    exact fun index after => standing index (Nat.le_of_succ_le after)
  | started position outside stands | installed stands | ready stands | refused index stands =>
    exact books.onward _ _ (by simp [System.unmarked, stands]) rfl
      (by simp [stands, Point.deaf]) rfl trivial
  | delivered stands pending =>
    have running : system.point.deaf = false := by
      rcases stands with stands | stands <;> simp [stands, Point.deaf]
    exact books.onward _ _ (System.unmarked_home stands) rfl running rfl trivial
  | unknown last stands _ nobody =>
    exact books.move _ _ (by simp [System.unmarked, stands]) rfl
      (fun _ => by simp [stands, Point.deaf]) (by simp) (standing_home _ system.home_cases)
  | reaped pid status last stands zombie =>
    have exists_ : system.processes pid ≠ .absent := by simp [zombie]
    have running : system.point.deaf = false := by simp [stands, Point.deaf]
    refine ⟨books.table.process .absent exists_, ?_, ?_,
      fun departs => absurd departs (by simp [Point.departs]), ?_⟩
    · intro other present
      have apart : other ≠ pid := by
        rintro rfl
        simp at present
      exact .inl (books.held running (by simp [System.unmarked, stands])
        (by simpa [apart] using present))
    · exact fun _ => books.unnoted running
    · exact ⟨by simp, (books.table.present pid exists_).2⟩
  | found pid status index stands _ child =>
    simp only [Standing, stands] at standing
    refine books.onward _ _ (by simp [System.unmarked, stands]) rfl
      (by simp [stands, Point.deaf]) rfl ?_
    simp only [Standing, child]
    exact standing.1
  | marked index status after stands next =>
    simp only [Standing, stands] at standing
    have quiet : after.deaf = false ∧ (after.departs = true → system.leaving = true) ∧
        Standing log.signalled { system.setChild index
          { system.children index with alive := false } with point := after } := by
      rw [next]
      split
      · exact ⟨rfl, by simp [Point.departs], by simp [Standing, System.setChild]⟩
      · exact ⟨by simp, by simp, standing_home _ system.home_cases⟩
    have running : system.point.deaf = false := by simp [stands, Point.deaf]
    refine ⟨books.table.keep index _ rfl (by simp), ?_, fun _ => books.unnoted running,
      quiet.2.1, quiet.2.2⟩
    intro pid present
    obtain ⟨other, here, alive⟩ :=
      books.held running (by simp [System.unmarked, stands]) present
    have apart : other ≠ index := by
      rintro rfl
      rw [here] at standing
      exact present standing
    exact .inl ⟨other, by simpa [System.setChild, apart] using here,
      by simpa [System.setChild, apart] using alive⟩
  | reforked index stands =>
    simp only [Standing, stands] at standing
    have running : system.point.deaf = false := by simp [stands, Point.deaf]
    refine ⟨books.table.fork, ?_, fun _ => books.unnoted running,
      fun departs => absurd departs (by simp [Point.departs]), ?_⟩
    · intro pid present
      by_cases same : pid = system.next
      · exact .inr (.inl (by simp [System.unmarked, same]))
      · exact .inl (books.held running (by simp [System.unmarked, stands])
          (by simpa [System.fork, same] using present))
    · exact ⟨standing, Nat.pos_iff_ne_zero.mp books.table.positive, Nat.lt_succ_self _,
        fun other => Nat.ne_of_lt (books.table.numbered other)⟩
  | recorded index pid stands =>
    simp only [Standing, stands] at standing
    obtain ⟨dead, nonzero, below, unused⟩ := standing
    refine ⟨books.table.rename index _ below nonzero unused, ?_,
      fun _ => books.unnoted (by simp [stands, Point.deaf]),
      fun departs => absurd departs (by simp [Point.departs]), ?_⟩
    · intro other present
      obtain held | forking | noted := books.owned other present
      · exact .inl (held.replace dead _)
      · refine .inr (.inl ?_)
        simpa [System.unmarked, stands, System.setChild] using forking
      · exact .inr (.inr noted)
    · simp [Standing, System.setChild, dead, nonzero]
  | raised index stands =>
    simp only [Standing, stands] at standing
    obtain ⟨dead, nonzero⟩ := standing
    refine ⟨books.table.keep index _ rfl (fun _ => nonzero), ?_,
      fun _ => books.unnoted (by simp [stands, Point.deaf]),
      fun departs => absurd departs (by simp [Point.departs]), trivial⟩
    intro other present
    obtain held | forking | noted := books.owned other present
    · exact .inl (held.replace dead _)
    · have here : (system.children index).pid = other := by
        simpa [System.unmarked, stands] using forking
      exact .inl ⟨index, by simpa [System.setChild] using here, by simp [System.setChild]⟩
    · exact .inr (.inr noted)
  | spent index stands =>
    have running : system.point.deaf = false := by simp [stands, Point.deaf]
    refine ⟨books.table.keep index _ rfl (books.table.named index), ?_,
      fun _ => books.unnoted running, by simp [System.setChild],
      standing_home _ system.home_cases⟩
    intro other present
    have held := books.held running (by simp [System.unmarked, stands]) present
    exact .inl (held.keep rfl id)
  | interrupted handled stays lives =>
    have before : system.point.departs = false :=
      Bool.eq_false_iff.mpr fun departs => absurd (books.leaves departs) (by simp [stays])
    have running := Point.deaf_stays before
    refine ⟨books.table, ?_, ?_, fun _ => rfl, trivial⟩
    · intro pid present
      obtain held | forking | noted := books.owned pid present
      · exact .inl held
      · exact .inr (.inr forking)
      · exact absurd ((books.unnoted running).symm.trans noted) (by simp)
    · intro listens
      have stands : system.point = .paused := by simpa [Point.deaf] using listens
      exact System.unmarked_home (.inl stands)
  | ignored listens stands =>
    exact books.depart _ _ (by simp [System.unmarked, stands]) rfl
      (by simp [stands, Point.departs]) rfl (fun index before => absurd before (Nat.not_lt_zero _))
  | terminated unhandled =>
    obtain ⟨marked, stays⟩ := System.unhandled_quiet unhandled
    exact books.onward _ _ marked rfl (Point.deaf_stays stays) rfl trivial
  | killed position inside stands alive present =>
    simp only [Standing, stands] at standing
    refine books.depart _ _ (by simp [System.unmarked, stands]) rfl
      (by simp [stands, Point.departs]) rfl ?_
    intro index before lives
    obtain earlier | same := Nat.lt_succ_iff_lt_or_eq.mp before
    · exact List.mem_append_left _ (standing index earlier lives)
    · obtain rfl : index = ⟨position, inside⟩ := Fin.ext same
      exact List.mem_append_right _ (List.mem_singleton_self _)
  | failed position inside stands alive gone =>
    exact books.depart _ _ (by simp [System.unmarked, stands]) rfl
      (by simp [stands, Point.departs]) rfl (fun wrong => absurd wrong (by decide))
  | skipped position inside stands dead =>
    simp only [Standing, stands] at standing
    refine books.depart _ _ (by simp [System.unmarked, stands]) rfl
      (by simp [stands, Point.departs]) rfl ?_
    intro index before lives
    obtain earlier | same := Nat.lt_succ_iff_lt_or_eq.mp before
    · exact standing index earlier lives
    · obtain rfl : index = ⟨position, inside⟩ := Fin.ext same
      exact absurd (dead.symm.trans lives) (by decide)
  | swept position outside stands =>
    simp only [Standing, stands] at standing
    refine books.depart _ _ (by simp [System.unmarked, stands]) rfl
      (by simp [stands, Point.departs]) rfl ?_
    exact fun index lives => standing index (Nat.lt_of_lt_of_le index.isLt outside) lives
  | cleaned stands =>
    simp only [Standing, stands] at standing
    exact books.depart _ _ (by simp [System.unmarked, stands]) rfl
      (by simp [stands, Point.departs]) rfl (fun _ => standing)
  | died pid status running =>
    have exists_ : system.processes pid ≠ .absent := by simp [running]
    refine ⟨books.table.process _ exists_, ?_, books.unnoted, books.leaves, ?_⟩
    · intro other present
      have before : system.processes other ≠ .absent := by
        by_cases same : other = pid
        · rw [same]
          exact exists_
        · simpa [same] using present
      exact books.owned other before
    · cases stands : system.point <;> simp only [Standing, stands] at standing ⊢
      case reaping last =>
        cases last with
        | none => trivial
        | some waited =>
          have apart : waited.1 ≠ pid := by
            intro same
            exact exists_ (same ▸ standing.1)
          exact ⟨by simpa [apart] using standing.1, standing.2⟩
      case marking index last =>
        have apart : (system.children index).pid ≠ pid := by
          intro same
          exact exists_ (same ▸ standing)
        simpa [apart] using standing
      all_goals exact standing

/-- The books are kept over whole runs. -/
theorem books_run {respawn : Fin n → Int} {events : List (Event n)} {final : System n}
    (run : Run Step (System.initial respawn) events final) : Books (history events) final :=
  run.invariant observe {} Books (books_initial respawn)
    fun _ _ _ _ books taken => books_step books (step_effect taken)

/-- Once `god` has removed the shared memory and exited, every process that it forked
and that has not gone was signalled, except for one at most: that which an interrupt
kept from being marked alive. -/
theorem nobody_unsignalled {respawn : Fin n → Int} {events : List (Event n)} {final : System n}
    (run : Run Step (System.initial respawn) events final)
    (exited : final.point = .exited sigint) (pid : Nat) (present : final.processes pid ≠ .absent) :
    pid ∈ (history events).signalled ∨ (history events).unmarked = some pid := by
  have books := books_run run
  have standing := books.standing
  simp only [Standing, exited] at standing
  obtain ⟨index, here, alive⟩ | forking | noted := books.owned pid present
  · have signalled := standing trivial index alive
    rw [here] at signalled
    exact .inl signalled
  · simp [System.unmarked, exited] at forking
  · exact .inr noted

/-- The child exits and is forked again, and the interrupt comes before its new pid is
recorded. -/
def interruptedRespawn : List Action :=
  [.god true, .god true, .god true, .god true, .die 1 256, .deliver, .reap 1, .god true,
    .god true, .god true, .interrupt, .god true, .god true, .god true, .god true]

/-- `nobody_unsignalled` on a run that leaves a process running. -/
theorem nobody_unsignalled_respawned : ∃ events final,
    Run Step (System.initial fun _ : Fin 1 => -1) events final ∧ final.processes 2 = .running ∧
      (2 ∈ (history events).signalled ∨ (history events).unmarked = some 2) := by
  have run := execute_run advance (System.initial fun _ : Fin 1 => -1) _ interruptedRespawn _ rfl
  exact ⟨_, _, run, rfl, nobody_unsignalled run rfl 2 (by decide)⟩

end Tyndall.God
