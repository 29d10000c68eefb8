import Mathlib.Data.List.Induction
import Tyndall.Foundation.Runs

/-!
# Simulations between runs, and parts of runs

A system simulates another when each of its steps stands for some steps of the
other, possibly none. What an event stands for is computed from the event alone,
so the other system's run is read off the events of the first. The relation that
carries the simulation may speak of everything that has happened, and the
simulation may be limited to runs of an admissible kind, as long as the start of
an admissible run is admissible.
-/

namespace Tyndall.Runs

universe u v w x
variable {State : Type u} {Event : Type v} {Other : Type w} {Label : Type x}

/-- The newest event of a run was a step from the state the others led to. -/
theorem Run.last {step : State → Event → State → Prop} {start final : State} {events : List Event}
    {event : Event} (run : Run step start (events ++ [event]) final) :
    ∃ state, Run step start events state ∧ step state event final := by
  generalize grown : events ++ [event] = whole at run
  cases run with
  | refl => simp at grown
  | snoc earlier newest state _ before taken =>
    obtain ⟨rfl, same⟩ := List.append_inj' grown rfl
    obtain rfl : event = newest := by simpa using same
    exact ⟨state, before, taken⟩

/-- A run can be cut anywhere. -/
theorem Run.split {step : State → Event → State → Prop} {start final : State}
    {first second : List Event} (run : Run step start (first ++ second) final) :
    ∃ middle, Run step start first middle ∧ Run step middle second final := by
  induction second using List.reverseRecOn generalizing final with
  | nil => exact ⟨final, by simpa using run, .refl⟩
  | append_singleton second event inductionHypothesis =>
    rw [← List.append_assoc] at run
    obtain ⟨state, before, taken⟩ := run.last
    obtain ⟨middle, here, there⟩ := inductionHypothesis before
    exact ⟨middle, here, .snoc second event state final there taken⟩

/-- A run without events ends where it starts. -/
theorem Run.nothing {step : State → Event → State → Prop} {start final : State}
    (run : Run step start [] final) : final = start := by
  generalize empty : ([] : List Event) = events at run
  cases run with
  | refl => rfl
  | snoc => simp at empty

/-- The first event of a run is a step from its start. -/
theorem Run.head {step : State → Event → State → Prop} {start final : State} {events : List Event}
    {event : Event} (run : Run step start (event :: events) final) :
    ∃ state, step start event state ∧ Run step state events final := by
  obtain ⟨state, here, there⟩ := (show Run step start ([event] ++ events) final from run).split
  obtain ⟨before, unmoved, taken⟩ := (show Run step start ([] ++ [event]) state from here).last
  obtain rfl := unmoved.nothing
  exact ⟨state, taken, there⟩

/-- What a sequence of events stands for. -/
abbrev projected (stands : Event → List Label) (events : List Event) : List Label :=
  events.flatMap stands

/-- The newest event stands for what comes last. -/
theorem projected_snoc (stands : Event → List Label) (events : List Event) (event : Event) :
    projected stands (events ++ [event]) = projected stands events ++ stands event := by
  simp [projected]

/-- What earlier events stand for comes first. -/
theorem projected_append (stands : Event → List Label) (first second : List Event) :
    projected stands (first ++ second) = projected stands first ++ projected stands second :=
  List.flatMap_append

/-- The simulation rule. If every step that keeps a run admissible is matched, from
related states, by a run of the labels its event stands for, then so is every
admissible run.

Proof: by induction on the run; the matching run is appended to the one so far. -/
theorem Run.simulated {step : State → Event → State → Prop} {start final : State}
    {events : List Event} {other : Other → Label → Other → Prop} {initial : Other}
    (stands : Event → List Label) (admissible : List Event → Prop)
    (earlier : ∀ events event, admissible (events ++ [event]) → admissible events)
    (related : List Event → State → Other → Prop) (atStart : related [] start initial)
    (matched : ∀ events state event next current, admissible (events ++ [event]) →
      related events state current → step state event next →
      ∃ later, Run other current (stands event) later ∧ related (events ++ [event]) next later)
    (run : Run step start events final) (permitted : admissible events) :
    ∃ last, Run other initial (projected stands events) last ∧ related events final last := by
  induction run with
  | refl => exact ⟨initial, .refl, atStart⟩
  | snoc events event state next _ taken inductionHypothesis =>
    obtain ⟨current, before, here⟩ := inductionHypothesis (earlier events event permitted)
    obtain ⟨later, after, there⟩ := matched events state event next current permitted here taken
    refine ⟨later, ?_, there⟩
    rw [projected_snoc]
    exact before.append after

/-- A run that need not be of any special kind. -/
theorem Run.projects {step : State → Event → State → Prop} {start final : State}
    {events : List Event} {other : Other → Label → Other → Prop} {initial : Other}
    (stands : Event → List Label) (related : State → Other → Prop)
    (atStart : related start initial)
    (matched : ∀ state event next current, related state current → step state event next →
      ∃ later, Run other current (stands event) later ∧ related next later)
    (run : Run step start events final) :
    ∃ last, Run other initial (projected stands events) last ∧ related final last :=
  run.simulated stands (fun _ => True) (fun _ _ _ => trivial) (fun _ => related) atStart
    (fun _ state event next current _ here taken => matched state event next current here taken)
    trivial

end Tyndall.Runs
