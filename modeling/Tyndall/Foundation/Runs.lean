/-!
# Finite runs, observers and guarded steps

A run is a finite sequence of labelled steps, kept in execution order and
extended at its end. What is recorded about a run is computed from its labels
alone by folding an observer over them, so no step can depend on the record.

The rules here name no program. An invariant relates the record to the state; it
holds of every run once one step preserves it. A guarded relation keeps only the
steps that meet a condition on the state before them, and a schedule of actions
executed by a partial function is a run of the relation the function induces.
-/

namespace Tyndall.Runs

universe u v w x
variable {State : Type u} {Event : Type v} {Log : Type w} {Action : Type x}

/-- Finite runs from a fixed start. The newest event stands last. -/
inductive Run (step : State → Event → State → Prop) (start : State) :
    List Event → State → Prop where
  | refl : Run step start [] start
  | snoc (events : List Event) (event : Event) (state next : State)
      (run : Run step start events state) (taken : step state event next) :
      Run step start (events ++ [event]) next

/-- Runs compose: the second starts where the first ended. -/
theorem Run.append {step : State → Event → State → Prop} {start middle final : State}
    {first second : List Event} (before : Run step start first middle)
    (after : Run step middle second final) : Run step start (first ++ second) final := by
  induction after with
  | refl => simpa using before
  | snoc events event state next _ taken inductionHypothesis =>
    rw [← List.append_assoc]
    exact .snoc _ event state next inductionHypothesis taken

/-- A single step is a run of one event. -/
theorem Run.single {step : State → Event → State → Prop} {start next : State} {event : Event}
    (taken : step start event next) : Run step start [event] next :=
  .snoc [] event start next .refl taken

/-- A run of one relation is a run of every relation that allows its steps. -/
theorem Run.mono {step other : State → Event → State → Prop} {start final : State}
    {events : List Event} (allowed : ∀ state event next, step state event next →
      other state event next) (run : Run step start events final) :
    Run other start events final := by
  induction run with
  | refl => exact .refl
  | snoc events event state next _ taken inductionHypothesis =>
    exact .snoc events event state next inductionHypothesis (allowed state event next taken)

/-- The record an observer has made of a run's events. -/
def observed (observe : Log → Event → Log) (initial : Log) (events : List Event) : Log :=
  events.foldl observe initial

@[simp] theorem observed_nil (observe : Log → Event → Log) (initial : Log) :
    observed observe initial [] = initial := rfl

@[simp] theorem observed_snoc (observe : Log → Event → Log) (initial : Log)
    (events : List Event) (event : Event) :
    observed observe initial (events ++ [event]) =
      observe (observed observe initial events) event := by
  simp [observed]

/-- What is observed later is added to the record so far. -/
theorem observed_append (observe : Log → Event → Log) (initial : Log) (first second : List Event) :
    observed observe initial (first ++ second) =
      observed observe (observed observe initial first) second :=
  List.foldl_append

/-- The invariant rule. A relation between record and state that holds at the
start and is preserved by one observed step holds after every run. -/
theorem Run.invariant {step : State → Event → State → Prop} {start final : State}
    {events : List Event} (observe : Log → Event → Log) (initial : Log)
    (holds : Log → State → Prop) (atStart : holds initial start)
    (preserved : ∀ log state event next, holds log state → step state event next →
      holds (observe log event) next)
    (run : Run step start events final) : holds (observed observe initial events) final := by
  induction run with
  | refl => exact atStart
  | snoc events event state next _ taken inductionHypothesis =>
    rw [observed_snoc]
    exact preserved _ state event next inductionHypothesis taken

/-- The steps of a relation that meet a condition on the state before them. -/
def Guarded (condition : State → Event → Prop) (step : State → Event → State → Prop) :
    State → Event → State → Prop :=
  fun state event next => condition state event ∧ step state event next

/-- A partial function from actions to observed steps induces a step relation. -/
def Steps (advance : State → Action → Option (Event × State)) :
    State → Event → State → Prop :=
  fun state event next => ∃ action, advance state action = some (event, next)

/-- Execute a schedule. A disabled action makes the whole schedule fail. -/
def execute (advance : State → Action → Option (Event × State)) :
    State → List Action → Option (List Event × State)
  | state, [] => some ([], state)
  | state, action :: rest => do
      let (event, next) ← advance state action
      let (events, final) ← execute advance next rest
      pure (event :: events, final)

/-- A schedule that succeeds is a run of the induced relation. -/
theorem execute_run (advance : State → Action → Option (Event × State)) (start final : State)
    (actions : List Action) (events : List Event)
    (executed : execute advance start actions = some (events, final)) :
    Run (Steps advance) start events final := by
  induction actions generalizing start events with
  | nil =>
    have same : [] = events ∧ start = final := by simpa [execute] using executed
    obtain ⟨rfl, rfl⟩ := same
    exact .refl
  | cons action rest inductionHypothesis =>
    simp only [execute, Option.bind_eq_bind, Option.bind_eq_some_iff, Option.pure_def,
      Option.some.injEq, Prod.exists, Prod.mk.injEq] at executed
    obtain ⟨event, next, first, later, reached, following, rfl, rfl⟩ := executed
    exact (Run.single ⟨action, first⟩).append (inductionHypothesis next later following)

/-- A partial function that is disabled where a condition fails. -/
def guardedBy (condition : State → Event → Prop) [∀ state event, Decidable (condition state event)]
    (advance : State → Action → Option (Event × State)) : State → Action → Option (Event × State) :=
  fun state action => (advance state action).filter (fun taken => condition state taken.1)

/-- Its runs are the runs of guarded steps. -/
theorem Run.ofGuarded {condition : State → Event → Prop}
    [∀ state event, Decidable (condition state event)]
    {advance : State → Action → Option (Event × State)} {start final : State} {events : List Event}
    (run : Run (Steps (guardedBy condition advance)) start events final) :
    Run (Guarded condition (Steps advance)) start events final := by
  apply run.mono
  rintro state event next ⟨action, taken⟩
  obtain ⟨advanced, holds⟩ := Option.filter_eq_some_iff.mp taken
  exact ⟨of_decide_eq_true holds, action, advanced⟩

/-- Execute a schedule by a total step function. -/
def replay (perform : State → Action → Event × State) : State → List Action → List Event × State
  | state, [] => ([], state)
  | state, action :: rest =>
      let (event, next) := perform state action
      let (events, final) := replay perform next rest
      (event :: events, final)

/-- The last action acts on the state the others leave. -/
theorem replay_snoc (perform : State → Action → Event × State) (start : State)
    (actions : List Action) (action : Action) :
    replay perform start (actions ++ [action]) =
      ((replay perform start actions).1 ++ [(perform (replay perform start actions).2 action).1],
        (perform (replay perform start actions).2 action).2) := by
  induction actions generalizing start with
  | nil => rfl
  | cons first rest inductionHypothesis =>
    simp only [List.cons_append, replay, inductionHypothesis]

/-- Two total functions report the same events on a schedule if and only if they
do at each of its actions. -/
theorem replay_agree_iff {Other : Type x} (first : State → Action → Event × State)
    (second : Other → Action → Event × Other) (start : State) (other : Other)
    (actions : List Action) :
    (replay first start actions).1 = (replay second other actions).1 ↔
      ∀ before action after, actions = before ++ action :: after →
        (first (replay first start before).2 action).1 =
          (second (replay second other before).2 action).1 := by
  induction actions generalizing start other with
  | nil => simp [replay]
  | cons action rest inductionHypothesis =>
    simp only [replay, List.cons.injEq, inductionHypothesis]
    constructor
    · rintro ⟨here, later⟩ before chosen after split
      cases before with
      | nil =>
        obtain ⟨rfl, rfl⟩ : action = chosen ∧ rest = after := by simpa using split
        exact here
      | cons head tail =>
        obtain ⟨rfl, rfl⟩ : action = head ∧ rest = tail ++ chosen :: after := by simpa using split
        exact later tail chosen after rfl
    · intro everywhere
      refine ⟨everywhere [] action rest rfl, ?_⟩
      rintro before chosen after rfl
      exact everywhere (action :: before) chosen after rfl

/-- Forward simulation. If every allowed action of the total function is matched
with the same event by the partial one from related states, then so is every
schedule of allowed actions. -/
theorem execute_simulates {Other : Type x} (concrete : State → Action → Option (Event × State))
    (perform : Other → Action → Event × Other) (related : State → Other → Prop)
    (allowed : Action → Prop)
    (simulated : ∀ state other action, related state other → allowed action →
      ∃ next, concrete state action = some ((perform other action).1, next) ∧
        related next (perform other action).2)
    (actions : List Action) (all : ∀ action ∈ actions, allowed action) (state : State)
    (other : Other) (start : related state other) :
    ∃ final, execute concrete state actions = some ((replay perform other actions).1, final) ∧
      related final (replay perform other actions).2 := by
  induction actions generalizing state other with
  | nil => exact ⟨state, rfl, start⟩
  | cons action rest inductionHypothesis =>
    obtain ⟨next, taken, after⟩ := simulated state other action start (all action (by simp))
    obtain ⟨final, executed, related⟩ := inductionHypothesis
      (fun action member => all action (List.mem_cons_of_mem _ member)) next _ after
    exact ⟨final, by simp [execute, taken, executed, replay], related⟩

/-- Some run leads from a state and its record to a state and its record. -/
def Leads (step : State → Event → State → Prop) (observe : Log → Event → Log)
    (before after : Log × State) : Prop :=
  ∃ events, Run step before.2 events after.2 ∧ observed observe before.1 events = after.1

/-- The empty run leads nowhere else. -/
theorem Leads.refl {step : State → Event → State → Prop} {observe : Log → Event → Log}
    (point : Log × State) : Leads step observe point point :=
  ⟨[], .refl, rfl⟩

/-- What a run leads to, a longer one leads on from. -/
theorem Leads.trans {step : State → Event → State → Prop} {observe : Log → Event → Log}
    {first second third : Log × State} (here : Leads step observe first second)
    (there : Leads step observe second third) : Leads step observe first third := by
  obtain ⟨earlier, run, recorded⟩ := here
  obtain ⟨later, following, after⟩ := there
  exact ⟨earlier ++ later, run.append following, by rw [observed_append, recorded, after]⟩

/-- A step leads to the state after it, with its event on record. -/
theorem Leads.single {step : State → Event → State → Prop} {observe : Log → Event → Log}
    {log : Log} {state next : State} {event : Event} (taken : step state event next) :
    Leads step observe (log, state) (observe log event, next) :=
  ⟨[event], .single taken, rfl⟩

end Tyndall.Runs
