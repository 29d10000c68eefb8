import Tyndall.Ipc.GodExit

/-!
# The status god exits with

A SIGCHLD may stand for several children, and all but the last that is waited for
stay marked alive. An interrupt may come before the last one is marked, and a child
may exit by itself once SIGCHLD is ignored and before it is signalled. Each leaves an entry that cannot
be signalled, and `god` then exits with status 1 and keeps the shared memory. Nothing
else makes it do so.
-/

namespace Tyndall.God

open Runs

variable {n : Nat}

/-- Whether an entry has not had its turn in `exit_handler`. -/
def Point.awaits (point : Point n) (index : Fin n) : Prop :=
  match point with
  | .killing next => next ≤ index
  | .cleaning | .exited _ => False
  | _ => True

/-- Until SIGCHLD is ignored every entry waits for its turn. -/
theorem Point.awaits_running {point : Point n} (running : point.ignores = false) (index : Fin n) :
    point.awaits index := by
  cases point <;> simp_all [Point.ignores, Point.awaits]

/-- Once SIGCHLD is ignored no process is being forked. -/
theorem System.unmarked_leaving {system : System n} (leaves : system.point.ignores = true) :
    system.unmarked = none := by
  cases stands : system.point <;> simp_all [System.unmarked, Point.ignores]

/-- What the losses so far say about the rest of `exit_handler`. -/
def Balance (lost : List Nat) (children : Fin n → Child) : Point n → Prop
  | .killing next => ∀ index : Fin n, index < next → (children index).alive = true →
      (children index).pid ∉ lost
  | .cleaning => lost = []
  | .exited status => status = sigint ↔ lost = []
  | _ => True

/-- It says nothing until SIGCHLD is ignored. -/
theorem Balance.running {lost : List Nat} {children : Fin n → Child} {point : Point n}
    (running : point.ignores = false) : Balance lost children point := by
  cases point <;> trivial

/-- The accounts are in order: the entries that are marked alive and whose processes
have gone are those of the lost pids. -/
structure Accounts (log : Log n) (system : System n) : Prop where
  ignores : log.ignores = system.point.ignores
  lost : ∀ pid ∈ log.lost, Held system.children pid
  gone : ∀ index, (system.children index).alive = true → system.point.awaits index →
    (system.processes (system.children index).pid = .absent ↔
      (system.children index).pid ∈ log.lost)
  signalled : ∀ pid ∈ log.signalled, ∃ index, ¬ system.point.awaits index ∧
    (system.children index).pid = pid
  unheld : ∀ pid, system.unmarked = some pid ∨ log.unmarked = some pid →
    ¬ Held system.children pid
  forked : ∀ pid, system.unmarked = some pid → system.processes pid ≠ .absent
  balance : Balance log.lost system.children system.point

/-- Nothing has been forked, nothing is lost. -/
theorem accounts_initial (respawn : Fin n → Int) : Accounts {} (System.initial respawn) := by
  refine ⟨rfl, by simp, ?_, by simp, ?_, ?_, trivial⟩
  · exact fun _ alive => absurd alive (by simp [System.initial])
  · exact fun _ unmarked => absurd unmarked (by simp [System.initial, System.unmarked])
  · exact fun _ unmarked => absurd unmarked (by simp [System.initial, System.unmarked])

/-- Nothing has been signalled until SIGCHLD is ignored. -/
theorem Accounts.silent {log : Log n} {system : System n} (accounts : Accounts log system)
    (running : system.point.ignores = false) : log.signalled = [] := by
  refine List.eq_nil_iff_forall_not_mem.mpr fun pid signalled => ?_
  obtain ⟨index, turned, -⟩ := accounts.signalled pid signalled
  exact turned (Point.awaits_running running index)

/-- What a step must show until SIGCHLD is ignored: it keeps the losses with the entries
whose processes have gone. -/
theorem Accounts.going {log later : Log n} {system next : System n}
    (accounts : Accounts log system) (running : system.point.ignores = false)
    (runs : next.point.ignores = false) (ignores : later.ignores = log.ignores)
    (signalled : later.signalled = log.signalled)
    (noted : ∀ pid, later.unmarked = some pid → ¬ Held next.children pid)
    (lost : ∀ pid ∈ later.lost, Held next.children pid)
    (gone : ∀ index, (next.children index).alive = true →
      (next.processes (next.children index).pid = .absent ↔
        (next.children index).pid ∈ later.lost))
    (forked : ∀ pid, next.unmarked = some pid →
      ¬ Held next.children pid ∧ next.processes pid ≠ .absent) :
    Accounts later next := by
  refine ⟨?_, lost, fun index alive _ => gone index alive, ?_, ?_,
    fun pid unmarked => (forked pid unmarked).2, Balance.running runs⟩
  · rw [ignores, accounts.ignores, running, runs]
  · rw [signalled, accounts.silent running]
    simp
  · rintro pid (unmarked | unmarked)
    · exact (forked pid unmarked).1
    · exact noted pid unmarked

/-- While `child_handler` may run no interrupt has kept a process from being marked. -/
theorem Books.nobody_noted {log : Log n} {system : System n} (books : Books log system)
    (running : system.point.deaf = false) (children : Fin n → Child) (pid : Nat)
    (noted : log.unmarked = some pid) : ¬ Held children pid :=
  absurd ((books.unnoted running).symm.trans noted) (by simp)

/-- `god` moves on and changes nothing else. -/
theorem Accounts.move {log : Log n} {system : System n} (books : Books log system)
    (accounts : Accounts log system) (point : Point n) (pending : Bool)
    (running : system.point.deaf = false) (runs : point.ignores = false)
    (marked : System.unmarked { system with pending := pending, point := point } = none) :
    Accounts log { system with pending := pending, point := point } :=
  accounts.going (Point.ignores_open running) runs rfl rfl (books.nobody_noted running _)
    accounts.lost
    (fun index alive =>
      accounts.gone index alive (Point.awaits_running (Point.ignores_open running) index))
    (fun pid unmarked => absurd (marked.symm.trans unmarked) (by simp))

/-- `exit_handler` moves on. -/
theorem Accounts.turn {log later : Log n} {system : System n} (accounts : Accounts log system)
    (point : Point n) (leaves : system.point.ignores = true) (left : point.ignores = true)
    (ignores : later.ignores = log.ignores) (lost : later.lost = log.lost)
    (noted : later.unmarked = log.unmarked)
    (waited : ∀ index, point.awaits index → system.point.awaits index)
    (signalled : ∀ pid ∈ later.signalled, ∃ index, ¬ point.awaits index ∧
      (system.children index).pid = pid)
    (balance : Balance log.lost system.children point) :
    Accounts later { system with point := point } := by
  have settled : System.unmarked { system with point := point } = none :=
    System.unmarked_leaving left
  refine ⟨?_, ?_, ?_, signalled, ?_, ?_, ?_⟩
  · rw [ignores, accounts.ignores, leaves, left]
  · rw [lost]
    exact accounts.lost
  · rw [lost]
    exact fun index alive waits => accounts.gone index alive (waited index waits)
  · rintro pid (unmarked | unmarked)
    · exact absurd (settled.symm.trans unmarked) (by simp)
    · exact accounts.unheld pid (.inr (noted.symm.trans unmarked))
  · exact fun pid unmarked => absurd (settled.symm.trans unmarked) (by simp)
  · rw [lost]
    exact balance

/-- Once no entry waits for its turn, what was signalled has had its own. -/
theorem Accounts.turned {log : Log n} {system : System n} (accounts : Accounts log system)
    {point : Point n} (done : ∀ index, ¬ point.awaits index) :
    ∀ pid ∈ log.signalled, ∃ index, ¬ point.awaits index ∧ (system.children index).pid = pid := by
  intro pid signalled
  obtain ⟨index, -, here⟩ := accounts.signalled pid signalled
  exact ⟨index, done index, here⟩

/-- A held pid is that of one entry only. -/
theorem Table.apart {children : Fin n → Child} {processes : Nat → Life} {next : Nat}
    (table : Table children processes next) {index other : Fin n} (differ : index ≠ other)
    (alive : (children index).alive = true) : (children index).pid ≠ (children other).pid :=
  fun same => differ (table.distinct index other same (table.named index alive))

/-- A process that exits is not lost until SIGCHLD is ignored, nor once it was signalled,
nor where an interrupt kept it from being marked alive. -/
theorem observe_died {log : Log n} {pid : Nat}
    (kept : ¬ (log.ignores = true ∧ pid ∉ log.signalled ∧ log.unmarked ≠ some pid)) :
    observe log (.died pid) = log := by
  rw [observe, if_neg kept]

/-- Once SIGCHLD is ignored a process that is marked alive was signalled if its entry had
its turn. -/
theorem turned_signalled {log : Log n} {system : System n} (books : Books log system)
    (leaves : system.point.ignores = true) (exits : ∀ status, system.point = .exited status →
      status = sigint) {index : Fin n} (alive : (system.children index).alive = true)
    (turned : ¬ system.point.awaits index) : (system.children index).pid ∈ log.signalled := by
  have standing := books.standing
  cases stands : system.point <;> simp only [stands, Standing] at standing leaves turned
  case killing next => exact standing index (Nat.lt_of_not_le turned) alive
  case cleaning => exact standing index alive
  case exited status => exact standing (exits status stands) index alive
  all_goals exact absurd leaves (by simp [Point.ignores])

/-- A process that exits by itself is lost where it should still be signalled. -/
theorem accounts_died {log : Log n} {system : System n} (books : Books log system)
    (accounts : Accounts log system) {pid status : Nat}
    (running : system.processes pid = .running) :
    Accounts (observe log (.died pid)) { system with
      processes := Function.update system.processes pid
        (if system.point.ignores then .absent else .zombie status)
      pending := system.pending || system.point.handles } := by
  have present : system.processes pid ≠ .absent := by simp [running]
  cases leaves : system.point.ignores with
  | false =>
    have stays : log.ignores = false := accounts.ignores.trans leaves
    have remains : ∀ other, Function.update system.processes pid (.zombie status) other = .absent ↔
        system.processes other = .absent := by
      intro other
      by_cases same : other = pid
      · simp [same, running]
      · rw [Function.update_of_ne same]
    have unchanged : observe log (.died pid) = log := observe_died (by simp [stays])
    rw [unchanged]
    refine accounts.going leaves leaves rfl rfl
      (fun other noted => accounts.unheld other (.inr noted)) accounts.lost ?_ ?_
    · intro index alive
      exact (remains _).trans (accounts.gone index alive (Point.awaits_running leaves index))
    · exact fun other unmarked => ⟨accounts.unheld other (.inl unmarked),
        mt (remains other).mp (accounts.forked other unmarked)⟩
  | true =>
    have left : log.ignores = true := accounts.ignores.trans leaves
    have settled : system.unmarked = none := System.unmarked_leaving leaves
    have others : ∀ other, other ≠ pid →
        (Function.update system.processes pid .absent other = .absent ↔
          system.processes other = .absent) :=
      fun other apart => by rw [Function.update_of_ne apart]
    by_cases lost : pid ∉ log.signalled ∧ log.unmarked ≠ some pid
    · have held : Held system.children pid := by
        obtain held | forking | noted := books.owned pid present
        · exact held
        · exact absurd (settled.symm.trans forking) (by simp)
        · exact absurd noted lost.2
      have added : (observe log (.died pid)).lost = log.lost ++ [pid] := by
        simp [observe, left, lost]
      refine ⟨accounts.ignores, ?_, ?_, accounts.signalled, accounts.unheld, ?_, ?_⟩
      · rw [added]
        intro other among
        obtain earlier | same := List.mem_append.mp among
        · exact accounts.lost other earlier
        · rwa [List.mem_singleton.mp same]
      · rw [added]
        intro index alive waits
        by_cases same : (system.children index).pid = pid
        · simp [same]
        · simpa [same] using accounts.gone index alive waits
      · exact fun other unmarked => absurd (settled.symm.trans unmarked) (by simp)
      · rw [added]
        obtain ⟨index, here, alive⟩ := held
        have waits : system.point.awaits index ∨
            ∃ status, system.point = .exited status ∧ status ≠ sigint := by
          by_contra none
          obtain ⟨turned, exits⟩ := not_or.mp none
          refine lost.1 (here ▸ turned_signalled books leaves (fun status stands => ?_) alive turned)
          exact Classical.byContradiction fun other => exits ⟨status, stands, other⟩
        have balance := accounts.balance
        cases stands : system.point <;> simp only [stands] at balance waits
        case killing next =>
          -- An entry that had its turn was signalled, so the pid is not its own.
          intro other before lives
          have kept := balance other before lives
          have apart : (system.children other).pid ≠ pid := by
            intro same
            have turned := turned_signalled books leaves (by simp [stands]) lives
              (by simpa [stands, Point.awaits] using before)
            exact lost.1 (same ▸ turned)
          simp [kept, apart]
        case cleaning => simp [Point.awaits] at waits
        case exited status =>
          have failed : status ≠ sigint := by simpa [Point.awaits] using waits
          simp [Balance, failed]
        all_goals trivial
    · have unchanged : observe log (.died pid) = log := observe_died (fun all => lost all.2)
      rw [unchanged]
      refine ⟨accounts.ignores, accounts.lost, ?_, accounts.signalled, accounts.unheld, ?_,
        accounts.balance⟩
      · intro index alive waits
        have apart : (system.children index).pid ≠ pid := by
          intro same
          refine lost ⟨?_, ?_⟩
          · intro signalled
            obtain ⟨other, turned, there⟩ := accounts.signalled pid signalled
            have here := books.table.distinct index other (same.trans there.symm)
              (books.table.named index alive)
            exact turned (here ▸ waits)
          · exact fun noted => accounts.unheld pid (.inr noted) ⟨index, same, alive⟩
        exact (others _ apart).trans (accounts.gone index alive waits)
      · exact fun other unmarked => absurd (settled.symm.trans unmarked) (by simp)

/-- One step keeps the accounts. -/
theorem accounts_step {log : Log n} {system next : System n} {event : Event n}
    (books : Books log system) (accounts : Accounts log system)
    (effect : Effect system event next) : Accounts (observe log event) next := by
  have standing := books.standing
  have table := books.table
  cases effect with
  | forked position inside stands =>
    simp only [Standing, stands] at standing
    have hears : system.point.deaf = false := by simp [stands, Point.deaf]
    have running := Point.ignores_open hears
    have dead := standing ⟨position, inside⟩ (Nat.le_refl _)
    refine accounts.going running rfl rfl rfl (books.nobody_noted hears _) ?_ ?_
      (by simp [System.unmarked])
    · exact fun pid among => (accounts.lost pid among).replace dead _
    · intro index alive
      by_cases same : index = ⟨position, inside⟩
      · subst same
        have fresh : system.next ∉ log.lost := by
          intro among
          obtain ⟨other, here, -⟩ := accounts.lost _ among
          exact absurd here (Nat.ne_of_lt (table.numbered other))
        simpa [System.setChild, System.fork, observe] using fresh
      · have apart : (system.children index).pid ≠ system.next :=
          Nat.ne_of_lt (table.numbered index)
        simp only [System.setChild, System.fork, Function.update_of_ne same,
          Function.update_of_ne apart] at alive ⊢
        exact accounts.gone index alive (Point.awaits_running running index)
  | notForked position inside stands | started position outside stands | installed stands
  | ready stands | refused index stands =>
    exact accounts.move books _ _ (by simp [stands, Point.deaf]) rfl rfl
  | delivered stands _ =>
    have hears : system.point.deaf = false := by
      rcases stands with stands | stands <;> simp [stands, Point.deaf]
    exact accounts.move books _ _ hears rfl rfl
  | unknown last stands _ nobody =>
    exact accounts.move books _ _ (by simp [stands, Point.deaf])
      (Point.ignores_open system.home_deaf) (System.unmarked_home system.home_cases)
  | found pid status index stands _ child =>
    exact accounts.move books _ _ (by simp [stands, Point.deaf]) rfl rfl
  | terminated unhandled =>
    exact accounts.move books _ _ (Point.deaf_stays (System.unhandled_quiet unhandled).2) rfl rfl
  | reaped pid status last stands zombie =>
    have hears : system.point.deaf = false := by simp [stands, Point.deaf]
    have running := Point.ignores_open hears
    have held : Held system.children pid :=
      books.held hears (by simp [System.unmarked, stands]) (by simp [zombie])
    refine accounts.going running rfl rfl rfl (books.nobody_noted hears _) ?_ ?_
      (by simp [System.unmarked])
    · intro other among
      obtain earlier | same := List.mem_append.mp among
      · exact accounts.lost other earlier
      · rwa [List.mem_singleton.mp same]
    · intro index alive
      by_cases same : (system.children index).pid = pid
      · simp [observe, same]
      · simpa [observe, same] using
          accounts.gone index alive (Point.awaits_running running index)
  | marked index status after stands next =>
    have hears : system.point.deaf = false := by simp [stands, Point.deaf]
    have running := Point.ignores_open hears
    have quiet : after.ignores = false ∧ ∀ pid, System.unmarked { system.setChild index
        { system.children index with alive := false } with point := after } ≠ some pid := by
      rw [next]
      split
      · exact ⟨rfl, by simp [System.unmarked]⟩
      · refine ⟨Point.ignores_open system.home_deaf, fun pid unmarked => ?_⟩
        rw [System.unmarked_home system.home_cases] at unmarked
        exact absurd unmarked (by simp)
    refine accounts.going running quiet.1 rfl rfl (books.nobody_noted hears _) ?_ ?_
      (fun pid unmarked => absurd unmarked (quiet.2 pid))
    · intro pid among
      obtain ⟨earlier, other⟩ := List.mem_filter.mp among
      obtain ⟨holder, here, alive⟩ := accounts.lost pid earlier
      have apart : holder ≠ index := by
        rintro rfl
        simp [here] at other
      exact ⟨holder, by simpa [System.setChild, apart] using here,
        by simpa [System.setChild, apart] using alive⟩
    · intro other alive
      have apart : other ≠ index := by
        rintro rfl
        simp [System.setChild] at alive
      simp only [System.setChild, Function.update_of_ne apart] at alive ⊢
      simpa [observe, table.apart apart alive] using
        accounts.gone other alive (Point.awaits_running running other)
  | reforked index stands =>
    have hears : system.point.deaf = false := by simp [stands, Point.deaf]
    have running := Point.ignores_open hears
    refine accounts.going running rfl rfl rfl (books.nobody_noted hears _) accounts.lost ?_ ?_
    · intro other alive
      have apart : (system.children other).pid ≠ system.next :=
        Nat.ne_of_lt (table.numbered other)
      simp only [System.fork, Function.update_of_ne apart]
      exact accounts.gone other alive (Point.awaits_running running other)
    · intro pid unmarked
      obtain rfl : system.next = pid := Option.some.inj unmarked
      refine ⟨?_, by simp [System.fork]⟩
      rintro ⟨other, here, -⟩
      exact absurd here (Nat.ne_of_lt (table.numbered other))
  | recorded index pid stands =>
    simp only [Standing, stands] at standing
    obtain ⟨dead, -, -, unused⟩ := standing
    have hears : system.point.deaf = false := by simp [stands, Point.deaf]
    have running := Point.ignores_open hears
    have apart : ∀ {other}, ((system.setChild index
        { system.children index with pid := pid }).children other).alive = true →
        other ≠ index := by
      rintro other alive rfl
      simp [System.setChild, dead] at alive
    refine accounts.going running rfl rfl rfl (books.nobody_noted hears _) ?_ ?_ ?_
    · exact fun other among => (accounts.lost other among).replace dead _
    · intro other alive
      have differ := apart alive
      simp only [System.setChild, Function.update_of_ne differ] at alive ⊢
      exact accounts.gone other alive (Point.awaits_running running other)
    · intro other unmarked
      obtain rfl : pid = other := by
        simpa [System.unmarked, System.setChild] using unmarked
      refine ⟨?_, accounts.forked pid (by simp [System.unmarked, stands])⟩
      rintro ⟨holder, here, alive⟩
      simp only [System.setChild, Function.update_of_ne (apart alive)] at here
      exact unused holder here
  | raised index stands =>
    simp only [Standing, stands] at standing
    have hears : system.point.deaf = false := by simp [stands, Point.deaf]
    have running := Point.ignores_open hears
    have unmarked : system.unmarked = some (system.children index).pid := by
      simp [System.unmarked, stands]
    refine accounts.going running rfl rfl rfl (books.nobody_noted hears _) ?_ ?_
      (by simp [System.unmarked])
    · exact fun other among => (accounts.lost other among).replace standing.1 _
    · intro other alive
      by_cases same : other = index
      · subst same
        have kept : (system.children other).pid ∉ log.lost :=
          fun among => accounts.unheld _ (.inl unmarked) (accounts.lost _ among)
        simpa [System.setChild, observe, kept] using accounts.forked _ unmarked
      · simp only [System.setChild, Function.update_of_ne same] at alive ⊢
        exact accounts.gone other alive (Point.awaits_running running other)
  | spent index stands =>
    have hears : system.point.deaf = false := by simp [stands, Point.deaf]
    have running := Point.ignores_open hears
    refine accounts.going running (Point.ignores_open system.home_deaf) rfl rfl
      (books.nobody_noted hears _) ?_ ?_ ?_
    · exact fun other among => (accounts.lost other among).keep rfl id
    · intro other alive
      have gone := accounts.gone other
      by_cases same : other = index
      · subst same
        simpa [System.setChild, observe] using
          gone (by simpa [System.setChild] using alive) (Point.awaits_running running other)
      · simp only [System.setChild, Function.update_of_ne same] at alive ⊢
        exact gone alive (Point.awaits_running running other)
    · intro pid unmarked
      rw [System.unmarked_home system.home_cases] at unmarked
      exact absurd unmarked (by simp)
  | interrupted handled stays lives =>
    have before : system.point.departs = false :=
      Bool.eq_false_iff.mpr fun departs => absurd (books.leaves departs) (by simp [stays])
    have running := Point.ignores_open (Point.deaf_stays before)
    refine accounts.going running rfl rfl rfl ?_ accounts.lost ?_ (by simp [System.unmarked])
    · exact fun pid noted => accounts.unheld pid (.inl noted)
    · exact fun index alive => accounts.gone index alive (Point.awaits_running running index)
  | ignored listens stands =>
    have running : system.point.ignores = false := by simp [stands, Point.ignores]
    refine ⟨rfl, accounts.lost, ?_, ?_, ?_, (by simp [System.unmarked]), ?_⟩
    · exact fun index alive _ => accounts.gone index alive (Point.awaits_running running index)
    · intro pid signalled
      rw [show (observe log .ignored).signalled = [] from accounts.silent running] at signalled
      exact absurd signalled (by simp)
    · rintro pid (unmarked | unmarked)
      · simp [System.unmarked] at unmarked
      · exact accounts.unheld pid (.inr unmarked)
    · exact fun index before => absurd before (Nat.not_lt_zero _)
  | killed position inside stands alive present =>
    have balance := accounts.balance
    have earlier := accounts.signalled
    have gone := accounts.gone ⟨position, inside⟩ alive
    simp only [stands, Point.awaits] at balance earlier gone
    refine accounts.turn _ (by simp [stands, Point.ignores]) rfl rfl rfl rfl ?_ ?_ ?_
    · intro index waits
      rw [stands]
      exact Nat.le_of_succ_le waits
    · intro pid signalled
      obtain before | same := List.mem_append.mp signalled
      · obtain ⟨index, turned, here⟩ := earlier pid before
        exact ⟨index, fun waits => turned (Nat.le_of_succ_le waits), here⟩
      · exact ⟨⟨position, inside⟩, Nat.not_succ_le_self position, (List.mem_singleton.mp same).symm⟩
    · intro index before lives
      obtain earlier | same := Nat.lt_succ_iff_lt_or_eq.mp before
      · exact balance index earlier lives
      · obtain rfl : index = ⟨position, inside⟩ := Fin.ext same
        exact mt (gone (Nat.le_refl _)).mpr present
  | failed position inside stands alive gone =>
    have among := (accounts.gone ⟨position, inside⟩ alive
      (by simp [stands, Point.awaits])).mp gone
    exact accounts.turn _ (by simp [stands, Point.ignores]) rfl rfl rfl rfl
      (fun _ waits => waits.elim) (accounts.turned fun _ => id)
      (iff_of_false (by decide) (List.ne_nil_of_mem among))
  | skipped position inside stands dead =>
    have balance := accounts.balance
    have earlier := accounts.signalled
    simp only [stands, Point.awaits] at balance earlier
    refine accounts.turn _ (by simp [stands, Point.ignores]) rfl rfl rfl rfl ?_ ?_ ?_
    · intro index waits
      rw [stands]
      exact Nat.le_of_succ_le waits
    · intro pid signalled
      obtain ⟨index, turned, here⟩ := earlier pid signalled
      exact ⟨index, fun waits => turned (Nat.le_of_succ_le waits), here⟩
    · intro index before lives
      obtain earlier | same := Nat.lt_succ_iff_lt_or_eq.mp before
      · exact balance index earlier lives
      · obtain rfl : index = ⟨position, inside⟩ := Fin.ext same
        exact absurd (dead.symm.trans lives) (by decide)
  | swept position outside stands =>
    have balance := accounts.balance
    rw [stands] at balance
    refine accounts.turn _ (by simp [stands, Point.ignores]) rfl rfl rfl rfl
      (fun _ waits => waits.elim) (accounts.turned fun _ => id) ?_
    refine List.eq_nil_iff_forall_not_mem.mpr fun pid among => ?_
    obtain ⟨index, rfl, alive⟩ := accounts.lost pid among
    exact balance index (Nat.lt_of_lt_of_le index.isLt outside) alive among
  | cleaned stands =>
    have balance := accounts.balance
    rw [stands] at balance
    exact accounts.turn _ (by simp [stands, Point.ignores]) rfl rfl rfl rfl
      (fun _ waits => waits.elim) (accounts.turned fun _ => id) (iff_of_true rfl balance)
  | died pid status running => exact accounts_died books accounts running

/-- The accounts are in order over whole runs. -/
theorem accounts_run {respawn : Fin n → Int} {events : List (Event n)} {final : System n}
    (run : Run Step (System.initial respawn) events final) : Accounts (history events) final :=
  (run.invariant observe {} (fun log system => Books log system ∧ Accounts log system)
    ⟨books_initial respawn, accounts_initial respawn⟩
    fun _ _ _ _ both taken => ⟨books_step both.1 (step_effect taken),
      accounts_step both.1 both.2 (step_effect taken)⟩).2

/-- One step removes the shared memory exactly when it leads to the status of the signal. -/
theorem cleaned_step {log : Log n} {system next : System n} {event : Event n}
    (books : Books log system) (same : log.cleaned = true ↔ system.point = .exited sigint)
    (effect : Effect system event next) :
    (observe log event).cleaned = true ↔ next.point = .exited sigint := by
  have home : system.home ≠ .exited sigint := by
    rcases system.home_cases with stands | stands <;> simp [stands]
  cases effect with
  | delivered stands pending =>
    have before : system.point ≠ .exited sigint := by
      rcases stands with stands | stands <;> simp [stands]
    simpa [observe, before] using same
  | unknown last stands nothing nobody => simpa [observe, stands, home] using same
  | spent index stands => simpa [observe, stands, home] using same
  | marked index status after stands next =>
    rw [stands] at same
    rw [next]
    split
    · simpa [observe] using same
    · simpa [observe, home] using same
  | died pid status running => exact same
  | interrupted handled stays lives =>
    have before : system.point ≠ .exited sigint := by
      intro stands
      have leaves := books.leaves (by simp [stands, Point.departs])
      exact absurd leaves (by simp [stays])
    simpa [observe, before] using same
  | terminated unhandled =>
    have before : system.point ≠ .exited sigint := by
      intro stands
      simp [stands, Point.unhandled] at unhandled
    simpa [observe, before] using same
  | cleaned stands => simp [observe]
  | _ => simp_all [observe, sigint]

/-- The shared memory is removed exactly on the way to the status of the signal. -/
theorem cleaned_run {respawn : Fin n → Int} {events : List (Event n)} {final : System n}
    (run : Run Step (System.initial respawn) events final) :
    (history events).cleaned = true ↔ final.point = .exited sigint :=
  (run.invariant observe {}
    (fun log system => Books log system ∧ (log.cleaned = true ↔ system.point = .exited sigint))
    ⟨books_initial respawn, by simp [System.initial]⟩
    fun _ _ _ _ both taken => ⟨books_step both.1 (step_effect taken),
      cleaned_step both.1 both.2 (step_effect taken)⟩).2

/-- An interrupt comes, and two children exit before SIGCHLD is ignored: the handler
begins once more and marks only the second. -/
def lostChild : List Action :=
  [.god true, .god true, .god true, .god true, .god true, .interrupt, .die 1 0, .die 2 0,
    .deliver, .reap 1, .reap 2, .god true, .god true, .god true, .god true]

end Tyndall.God
