import Tyndall.Ipc.GodExit

/-!
# How often god forks a child

An entry says how often its child is forked again. The count goes down after each
such fork, and an interrupt may keep it from going down; then `child_handler` does not
run any more, and nothing is forked.
-/

namespace Tyndall.God

open Runs

variable {n : Nat}

/-- Whether a fork of an entry may not be counted yet. -/
def Point.owes (point : Point n) (index : Fin n) : Prop :=
  match point with
  | .recording other _ | .raising other | .spending other => other = index
  | .leaving listens => listens = false
  | .killing _ | .cleaning | .exited _ => True
  | _ => False

/-- Whether an entry is being forked again. -/
def Point.retries (point : Point n) (index : Fin n) : Prop :=
  match point with
  | .respawning other | .recording other _ | .raising other | .spending other => other = index
  | _ => False

/-- Where `child_handler` returns to, no entry is being forked again. -/
theorem System.home_quiet (system : System n) :
    (∀ position, system.home ≠ .starting position) ∧ ∀ index, ¬ system.home.retries index := by
  rcases system.home_cases with stands | stands <;> simp [stands, Point.retries]

/-- The budget of one entry: what it was given, how often it was forked, what is left,
and whether one fork may not be counted yet. -/
def Afforded (given : Int) (forks : Nat) (left : Int) (owes : Prop) : Prop :=
  0 ≤ left ∧ (forks + left ≤ 1 + given ∨ owes ∧ 1 ≤ left ∧ forks + left ≤ 2 + given)

/-- No entry is forked more often than it may be. -/
theorem Afforded.forks_le {given left : Int} {forks : Nat} {owes : Prop}
    (afforded : Afforded given forks left owes) : (forks : Int) ≤ 1 + given := by
  obtain ⟨nonnegative, counted | ⟨-, spare, uncounted⟩⟩ := afforded
  · omega
  · omega

/-- What is left may come to be owed. -/
theorem Afforded.mono {given left : Int} {forks : Nat} {owes later : Prop}
    (afforded : Afforded given forks left owes) (implies : owes → later) :
    Afforded given forks left later :=
  ⟨afforded.1, afforded.2.imp_right fun rest => ⟨implies rest.1, rest.2⟩⟩

/-- The budgets of all entries that have one, and of those that `main` has not come to. -/
structure Budgets (respawn : Fin n → Int) (log : Log n) (system : System n) : Prop where
  afforded : ∀ index, 0 ≤ respawn index →
    Afforded (respawn index) (log.forks index) (system.children index).respawn
      (system.point.owes index)
  ahead : ∀ next (index : Fin n), system.point = .starting next → next ≤ index →
    log.forks index = 0 ∧ (system.children index).respawn = respawn index
  retries : ∀ index, system.point.retries index → (system.children index).respawn ≠ 0

/-- No entry has been forked. -/
theorem budgets_initial (respawn : Fin n → Int) : Budgets respawn {} (System.initial respawn) := by
  refine ⟨fun index given => ⟨given, .inl ?_⟩, fun _ _ _ _ => ⟨rfl, rfl⟩, fun _ nothing => nothing.elim⟩
  change ((0 : Nat) : Int) + respawn index ≤ 1 + respawn index
  omega

/-- A step that forks nothing and counts nothing keeps the budgets. -/
theorem Budgets.keep {respawn : Fin n → Int} {log later : Log n} {system next : System n}
    (budgets : Budgets respawn log system) (forks : later.forks = log.forks)
    (counts : ∀ index, (next.children index).respawn = (system.children index).respawn)
    (owes : ∀ index, system.point.owes index → next.point.owes index)
    (ahead : ∀ position, next.point = .starting position →
      ∃ before ≤ position, system.point = .starting before)
    (retries : ∀ index, next.point.retries index →
      system.point.retries index ∨ (system.children index).respawn ≠ 0) :
    Budgets respawn later next := by
  refine ⟨?_, ?_, ?_⟩
  · intro index given
    rw [forks, counts]
    exact (budgets.afforded index given).mono (owes index)
  · intro position index stands after
    obtain ⟨before, earlier, stood⟩ := ahead position stands
    rw [forks, counts]
    exact budgets.ahead before index stood (Nat.le_trans earlier after)
  · intro index retried
    rw [counts]
    exact (retries index retried).elim (budgets.retries index) id

/-- Replacing an entry by one with its count changes no count. -/
theorem setChild_respawn (system : System n) (index : Fin n) {child : Child}
    (same : child.respawn = (system.children index).respawn) (other : Fin n) :
    ((system.setChild index child).children other).respawn = (system.children other).respawn := by
  by_cases replaced : other = index
  · simp [System.setChild, replaced, same]
  · simp [System.setChild, replaced]

/-- One step keeps the budgets. -/
theorem budgets_step {respawn : Fin n → Int} {log : Log n} {system next : System n}
    {event : Event n} (budgets : Budgets respawn log system)
    (effect : Effect system event next) : Budgets respawn (observe log event) next := by
  have retries := budgets.retries
  cases effect with
  | forked position inside stands =>
    have ahead := budgets.ahead position
    refine ⟨?_, ?_, fun _ nothing => nothing.elim⟩
    · intro index given
      by_cases same : index = ⟨position, inside⟩
      · obtain ⟨none, count⟩ := ahead index stands (by simp [same])
        subst same
        refine ⟨by simpa [System.setChild, count] using given, .inl ?_⟩
        simp [observe, System.setChild, none, count]
      · have afforded := budgets.afforded index given
        simp only [stands, Point.owes] at afforded
        simpa [observe, System.setChild, System.fork, Point.owes, same] using afforded
    · intro later index stood after
      obtain rfl : position + 1 = later := by simpa using stood
      have apart : index ≠ ⟨position, inside⟩ := by
        rintro rfl
        exact Nat.not_succ_le_self _ after
      simpa [observe, System.setChild, System.fork, apart] using
        ahead index stands (Nat.le_of_succ_le after)
  | delivered stands pending =>
    refine budgets.keep rfl (fun _ => rfl) ?_ (by simp) (fun _ => False.elim)
    rcases stands with stands | stands <;> simp [stands, Point.owes]
  | unknown last stands nothing nobody =>
    obtain ⟨started, retried⟩ := system.home_quiet
    exact budgets.keep rfl (fun _ => rfl) (by simp [stands, Point.owes])
      (fun position stood => absurd stood (started position))
      (fun index again => absurd again (retried index))
  | notForked position inside stands =>
    refine budgets.keep rfl (fun _ => rfl) (by simp [stands, Point.owes]) ?_ (fun _ => False.elim)
    intro later stood
    obtain rfl : position + 1 = later := by simpa using stood
    exact ⟨position, Nat.le_succ position, stands⟩
  | started position outside stands | installed stands | ready stands
  | reaped pid status last stands zombie | found pid status index stands _ child =>
    exact budgets.keep rfl (fun _ => rfl) (by simp [stands, Point.owes]) (by simp)
      (fun _ => False.elim)
  | marked index status after stands next =>
    refine budgets.keep rfl (setChild_respawn system index rfl) (by simp [stands, Point.owes]) ?_ ?_
    · intro position stood
      rw [next] at stood
      split at stood
      · simp at stood
      · exact absurd stood (system.home_quiet.1 position)
    · intro other retried
      rw [next] at retried
      split at retried
      · next again =>
        obtain rfl : index = other := retried
        exact .inr again.1
      · exact absurd retried (system.home_quiet.2 other)
  | reforked index stands =>
    simp only [stands, Point.retries] at retries
    have uncounted := retries index rfl
    refine ⟨?_, by simp, fun other => retries other⟩
    intro other given
    have afforded := budgets.afforded other given
    simp only [stands, Point.owes] at afforded
    by_cases same : other = index
    · subst same
      obtain ⟨nonnegative, counted | ⟨owed, -⟩⟩ := afforded
      · refine ⟨nonnegative, .inr ⟨rfl, ?_, ?_⟩⟩
        · simp only [System.fork]
          omega
        · simp only [observe, System.fork, Function.update_self]
          omega
      · exact owed.elim
    · simpa [observe, System.fork, same] using afforded.mono False.elim
  | refused index stands =>
    refine budgets.keep rfl (fun _ => rfl) (by simp [stands, Point.owes]) (by simp) ?_
    intro other retried
    exact .inl (by simpa [stands, Point.retries] using retried)
  | recorded index pid stands | raised index stands =>
    refine budgets.keep rfl (setChild_respawn system index rfl) ?_ (by simp) ?_
    · exact fun other owed => by simpa [stands, Point.owes] using owed
    · exact fun other retried => .inl (by simpa [stands, Point.retries] using retried)
  | spent index stands =>
    simp only [stands, Point.retries] at retries
    have uncounted := retries index rfl
    obtain ⟨started, retried⟩ := system.home_quiet
    refine ⟨?_, fun position _ stood => absurd stood (started position),
      fun other again => absurd again (retried other)⟩
    intro other given
    have afforded := budgets.afforded other given
    simp only [stands, Point.owes] at afforded
    by_cases same : other = index
    · subst same
      simp only [observe, System.setChild, Function.update_self]
      obtain ⟨nonnegative, counted | ⟨-, spare, owed⟩⟩ := afforded
      · exact ⟨by omega, .inl (by omega)⟩
      · exact ⟨by omega, .inl (by omega)⟩
    · have apart : index ≠ other := fun here => same here.symm
      have counted : Afforded (respawn other) (log.forks other) (system.children other).respawn
          False := by simpa [apart] using afforded
      simpa [observe, System.setChild, same] using counted.mono False.elim
  | interrupted handled stays lives =>
    refine budgets.keep rfl (fun _ => rfl) ?_ (by simp) (fun _ => False.elim)
    intro index owed
    have running : system.point ≠ .paused := by
      intro stands
      simp [stands, Point.owes] at owed
    exact decide_eq_false running
  | ignored listens stands =>
    exact budgets.keep rfl (fun _ => rfl) (fun _ _ => trivial) (by simp) (fun _ => False.elim)
  | terminated unhandled =>
    refine budgets.keep rfl (fun _ => rfl) ?_ (by simp) (fun _ => False.elim)
    intro index owed
    unfold Point.unhandled at unhandled
    split at unhandled <;> simp_all [Point.owes]
  | killed position inside stands alive present | failed position inside stands alive gone
  | skipped position inside stands dead | swept position outside stands | cleaned stands =>
    exact budgets.keep rfl (fun _ => rfl) (fun _ _ => trivial) (by simp) (fun _ => False.elim)
  | died pid status running =>
    exact budgets.keep rfl (fun _ => rfl) (fun _ => id)
      (fun position stood => ⟨position, Nat.le_refl _, stood⟩) (fun _ => .inl)

/-- In every run an entry that may be forked again `r` times is forked at most `1 + r`
times, and at no time is its count below zero. -/
theorem forks_bounded {respawn : Fin n → Int} {events : List (Event n)} {final : System n}
    (run : Run Step (System.initial respawn) events final) (index : Fin n)
    (given : 0 ≤ respawn index) :
    ((history events).forks index : Int) ≤ 1 + respawn index ∧
      0 ≤ (final.children index).respawn := by
  have budgets : Budgets respawn (history events) final :=
    run.invariant observe {} (Budgets respawn) (budgets_initial respawn)
      fun _ _ _ _ budgets taken => budgets_step budgets (step_effect taken)
  exact ⟨(budgets.afforded index given).forks_le, (budgets.afforded index given).1⟩

/-- A child that may be forked again once exits with an error. -/
def respawnedOnce : List Action :=
  [.god true, .god true, .god true, .god true, .die 1 256, .deliver, .reap 1, .god true,
    .god true, .god true, .god true, .god true, .god true]

/-- `forks_bounded` on a run that uses up its count. -/
theorem forks_bounded_once : ∃ events final,
    Run Step (System.initial fun _ : Fin 1 => 1) events final ∧
      (history events).forks ⟨0, Nat.one_pos⟩ = 2 ∧
      ((history events).forks ⟨0, Nat.one_pos⟩ : Int) ≤ 1 + 1 ∧
        0 ≤ (final.children ⟨0, Nat.one_pos⟩).respawn := by
  have run := execute_run advance (System.initial fun _ : Fin 1 => 1) _ respawnedOnce _ rfl
  exact ⟨_, _, run, rfl, forks_bounded run ⟨0, Nat.one_pos⟩ (by decide)⟩

end Tyndall.God
