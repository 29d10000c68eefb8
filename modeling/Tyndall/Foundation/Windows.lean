import Mathlib.Data.List.Basic

/-!
# Memory accesses that overtake each other

The accesses a thread has in flight stand in a window, in program order. They may
happen in another order: an access overtakes those before it if they are accesses
of other places and no barrier stands between. A barrier that nothing stands
before has done its work.

Nothing else is known of an access than its place. Where accesses of different
places commute, as stores do, performing them in any order that the window allows
leads to where performing them in program order does.
-/

namespace Tyndall.Windows

universe u v w
variable {Access : Type u} {Place : Type v} {Memory : Type w}

/-- What stands in a window. -/
inductive Item (Access : Type u) where
  | access (access : Access)
  | barrier

/-- Accesses without barriers between them. -/
def accesses (list : List Access) : List (Item Access) := list.map .access

@[simp] theorem accesses_nil : accesses ([] : List Access) = [] := rfl

@[simp] theorem accesses_cons (first : Access) (rest : List Access) :
    accesses (first :: rest) = .access first :: accesses rest := rfl

@[simp] theorem accesses_append (first second : List Access) :
    accesses (first ++ second) = accesses first ++ accesses second := by
  simp [accesses]

/-- A barrier, where there is one. -/
def fence (present : Bool) : List (Item Access) := if present then [.barrier] else []

@[simp] theorem fence_true : fence true = [(.barrier : Item Access)] := rfl

@[simp] theorem fence_false : fence false = ([] : List (Item Access)) := rfl

/-- The window without the barriers that nothing stands before. -/
def settled : List (Item Access) → List (Item Access)
  | .barrier :: rest => settled rest
  | items => items

@[simp] theorem settled_nil : settled ([] : List (Item Access)) = [] := rfl

@[simp] theorem settled_barrier (rest : List (Item Access)) :
    settled (.barrier :: rest) = settled rest := rfl

@[simp] theorem settled_access (first : Access) (rest : List (Item Access)) :
    settled (.access first :: rest) = .access first :: rest := rfl

/-- What joins a window later may find barriers that have done their work. -/
theorem settled_append (first second : List (Item Access)) :
    settled (first ++ second) = settled (settled first ++ second) := by
  induction first with
  | nil => rfl
  | cons item rest inductionHypothesis =>
    cases item with
    | access access => rfl
    | barrier => simpa using inductionHypothesis

/-- Windows that differ by such barriers alone still do when something joins them. -/
theorem settled_join {first second : List (Item Access)} (same : settled first = settled second)
    (later : List (Item Access)) : settled (first ++ later) = settled (second ++ later) := by
  rw [settled_append first, settled_append second, same]

section Overtaking

variable [DecidableEq Place] (place : Access → Place)

/-- The access with a number of others before it that it overtakes, and what is left. -/
def overtaking : List (Item Access) → Nat → Option (Access × List (Item Access))
  | .access first :: rest, 0 => some (first, rest)
  | .access first :: rest, before + 1 => do
      let (chosen, left) ← overtaking rest before
      if place first = place chosen then none else some (chosen, .access first :: left)
  | _, _ => none

/-- The access that happens next, chosen by the number of others it overtakes. -/
def perform (items : List (Item Access)) (before : Nat) :
    Option (Access × List (Item Access)) :=
  overtaking place (settled items) before

variable {place}

/-- An access overtakes exactly accesses of other places. -/
theorem overtaking_iff {items left : List (Item Access)} {chosen : Access} {before : Nat} :
    overtaking place items before = some (chosen, left) ↔
      ∃ overtaken after, items = accesses overtaken ++ .access chosen :: after ∧
        left = accesses overtaken ++ after ∧ overtaken.length = before ∧
        ∀ access ∈ overtaken, place access ≠ place chosen := by
  induction items generalizing left before with
  | nil => simp [overtaking]
  | cons item rest inductionHypothesis =>
    cases item with
    | barrier =>
      simp only [overtaking, reduceCtorEq, false_iff, not_exists]
      rintro (_ | ⟨first, overtaken⟩) after ⟨same, -⟩ <;> simp at same
    | access first =>
      cases before with
      | zero =>
        constructor
        · intro taken
          obtain ⟨rfl, rfl⟩ : first = chosen ∧ rest = left := by simpa [overtaking] using taken
          exact ⟨[], rest, by simp⟩
        · rintro ⟨overtaken, after, same, rfl, none, -⟩
          obtain rfl := List.length_eq_zero_iff.mp none
          obtain ⟨rfl, rfl⟩ : first = chosen ∧ rest = after := by simpa using same
          simp [overtaking]
      | succ before =>
        simp only [overtaking, Option.bind_eq_bind, Option.bind_eq_some_iff, Prod.exists]
        constructor
        · rintro ⟨other, remaining, taken, kept⟩
          split at kept
          · exact absurd kept (by simp)
          · next apart =>
            obtain ⟨rfl, rfl⟩ : other = chosen ∧ .access first :: remaining = left := by
              simpa using kept
            obtain ⟨overtaken, after, rfl, rfl, rfl, others⟩ := inductionHypothesis.mp taken
            refine ⟨first :: overtaken, after, rfl, rfl, rfl, ?_⟩
            intro access among
            rcases List.mem_cons.mp among with rfl | among
            · exact apart
            · exact others access among
        · rintro ⟨overtaken, after, same, rfl, many, others⟩
          cases overtaken with
          | nil => simp at many
          | cons head overtaken =>
            obtain ⟨rfl, rfl⟩ : first = head ∧
                rest = accesses overtaken ++ .access chosen :: after := by simpa using same
            have apart := others first (by simp)
            refine ⟨chosen, accesses overtaken ++ after, ?_, by simp [apart]⟩
            exact inductionHypothesis.mpr ⟨overtaken, after, rfl, rfl, by simpa using many,
              fun access among => others access (by simp [among])⟩

/-- The first access that stands in a window can always happen. -/
theorem perform_first (first : Access) (rest : List (Item Access)) :
    perform place (.access first :: rest) 0 = some (first, rest) := rfl

/-- An access can happen before others of other places that no barrier keeps it behind. -/
theorem perform_past (overtaken : List Access) {chosen : Access} (after : List (Item Access))
    (others : ∀ access ∈ overtaken, place access ≠ place chosen) :
    perform place (accesses overtaken ++ .access chosen :: after) overtaken.length =
      some (chosen, accesses overtaken ++ after) := by
  have working : settled (accesses overtaken ++ .access chosen :: after) =
      accesses overtaken ++ .access chosen :: after := by cases overtaken <;> rfl
  exact overtaking_iff.mpr ⟨overtaken, after, working, rfl, rfl, others⟩

/-- An access can happen whatever joins its window later. -/
theorem perform_append {items left : List (Item Access)} {chosen : Access} {before : Nat}
    (taken : perform place items before = some (chosen, left)) (later : List (Item Access)) :
    perform place (items ++ later) before = some (chosen, left ++ later) := by
  obtain ⟨overtaken, after, stands, rfl, rfl, others⟩ := overtaking_iff.mp taken
  apply overtaking_iff.mpr
  refine ⟨overtaken, after ++ later, ?_, by simp, rfl, others⟩
  rw [settled_append, stands]
  cases overtaken <;> simp

/-- Which accesses can happen depends on the barriers at work alone. -/
theorem perform_settled {items others : List (Item Access)} (same : settled items = settled others)
    (before : Nat) : perform place items before = perform place others before := by
  rw [perform, perform, same]

/-- An access with nothing but accesses before it stands before every barrier. -/
theorem before_barrier (first : List Access) {overtaken : List Access} {chosen : Access}
    {later after : List (Item Access)}
    (same : accesses first ++ .barrier :: later =
      accesses overtaken ++ .access chosen :: after) :
    ∃ remaining, first = overtaken ++ chosen :: remaining ∧
      after = accesses remaining ++ .barrier :: later := by
  induction first generalizing overtaken with
  | nil => cases overtaken <;> simp at same
  | cons head rest inductionHypothesis =>
    cases overtaken with
    | nil =>
      obtain ⟨rfl, rfl⟩ : head = chosen ∧ accesses rest ++ .barrier :: later = after := by
        simpa using same
      exact ⟨rest, rfl, rfl⟩
    | cons other overtaken =>
      obtain ⟨rfl, tails⟩ : head = other ∧ accesses rest ++ .barrier :: later =
          accesses overtaken ++ .access chosen :: after := by simpa using same
      obtain ⟨remaining, rfl, behind⟩ := inductionHypothesis tails
      exact ⟨remaining, rfl, behind⟩

/-- Nothing passes a barrier. What happens next stands before it, or nothing does. -/
theorem perform_fenced (first : List Access) {later left : List (Item Access)} {chosen : Access}
    {before : Nat}
    (taken : perform place (accesses first ++ .barrier :: later) before = some (chosen, left)) :
    (∃ overtaken remaining, first = overtaken ++ chosen :: remaining ∧
      left = accesses (overtaken ++ remaining) ++ .barrier :: later ∧
      ∀ access ∈ overtaken, place access ≠ place chosen) ∨
    (first = [] ∧ perform place later before = some (chosen, left)) := by
  cases first with
  | nil => exact .inr ⟨rfl, taken⟩
  | cons head rest =>
    left
    obtain ⟨overtaken, after, stands, rfl, -, others⟩ := overtaking_iff.mp taken
    obtain ⟨remaining, parts, rfl⟩ := before_barrier (head :: rest) stands
    exact ⟨overtaken, remaining, parts, by simp, others⟩

/-- What happens next is the first access in the window or one that overtakes it. -/
theorem perform_cons {first chosen : Access} {rest left : List (Item Access)} {before : Nat}
    (taken : perform place (.access first :: rest) before = some (chosen, left)) :
    (chosen = first ∧ left = rest) ∨
    (place first ≠ place chosen ∧
      ∃ fewer other, overtaking place rest fewer = some (chosen, other)) := by
  cases before with
  | zero =>
    obtain ⟨rfl, rfl⟩ := Prod.mk.inj (Option.some.inj taken)
    exact .inl ⟨rfl, rfl⟩
  | succ fewer =>
    obtain ⟨overtaken, after, stands, -, many, others⟩ := overtaking_iff.mp taken
    cases overtaken with
    | nil => simp at many
    | cons head overtaken =>
      obtain ⟨rfl, rfl⟩ : first = head ∧
          rest = accesses overtaken ++ .access chosen :: after := by simpa using stands
      refine .inr ⟨others first (by simp), overtaken.length, accesses overtaken ++ after, ?_⟩
      exact overtaking_iff.mpr ⟨overtaken, after, rfl, rfl, rfl,
        fun access among => others access (by simp [among])⟩

/-- An access that stands alone before a barrier is the next to happen. -/
theorem perform_alone {first chosen : Access} {later left : List (Item Access)} {before : Nat}
    (taken : perform place (.access first :: .barrier :: later) before = some (chosen, left)) :
    chosen = first ∧ left = .barrier :: later := by
  obtain ⟨overtaken, remaining, parts, rfl, -⟩ | ⟨none, -⟩ :=
    perform_fenced [first] taken
  · obtain ⟨rfl, rfl, rfl⟩ : overtaken = [] ∧ first = chosen ∧ remaining = [] := by
      cases overtaken <;> simp_all
    exact ⟨rfl, rfl⟩
  · simp at none

end Overtaking

section Memory

variable {place : Access → Place} (apply : Access → Memory → Memory)

/-- What accesses do to the memory in program order. -/
def drained (memory : Memory) (items : List (Item Access)) : Memory :=
  items.foldl (fun memory item => match item with
    | .access access => apply access memory
    | .barrier => memory) memory

@[simp] theorem drained_nil (memory : Memory) : drained apply memory [] = memory := rfl

@[simp] theorem drained_access (memory : Memory) (first : Access) (rest : List (Item Access)) :
    drained apply memory (.access first :: rest) = drained apply (apply first memory) rest := rfl

@[simp] theorem drained_barrier (memory : Memory) (rest : List (Item Access)) :
    drained apply memory (.barrier :: rest) = drained apply memory rest := rfl

@[simp] theorem drained_append (memory : Memory) (first second : List (Item Access)) :
    drained apply memory (first ++ second) = drained apply (drained apply memory first) second := by
  simp [drained]

@[simp] theorem drained_fence (memory : Memory) (present : Bool) :
    drained apply memory (fence present) = memory := by
  cases present <;> rfl

@[simp] theorem drained_settled (memory : Memory) (items : List (Item Access)) :
    drained apply memory (settled items) = drained apply memory items := by
  induction items with
  | nil => rfl
  | cons item rest inductionHypothesis =>
    cases item with
    | access access => rfl
    | barrier => simpa using inductionHypothesis

variable {apply}

/-- An access that commutes with those it overtakes does at once what it would do
in its turn. -/
theorem drained_overtaken
    (commute : ∀ first second memory, place first ≠ place second →
      apply first (apply second memory) = apply second (apply first memory))
    {overtaken : List Access} {chosen : Access} (memory : Memory)
    (others : ∀ access ∈ overtaken, place access ≠ place chosen) :
    drained apply (apply chosen memory) (accesses overtaken) =
      apply chosen (drained apply memory (accesses overtaken)) := by
  induction overtaken generalizing memory with
  | nil => rfl
  | cons first rest inductionHypothesis =>
    rw [accesses_cons, drained_access, drained_access,
      commute first chosen memory (others first (by simp))]
    exact inductionHypothesis (apply first memory) (fun access among => others access (by simp [among]))

/-- Whatever the order in which accesses happen, they lead to where program order
leads. -/
theorem drained_perform [DecidableEq Place]
    (commute : ∀ first second memory, place first ≠ place second →
      apply first (apply second memory) = apply second (apply first memory))
    {items left : List (Item Access)} {chosen : Access} {before : Nat} (memory : Memory)
    (taken : perform place items before = some (chosen, left)) :
    drained apply (apply chosen memory) left = drained apply memory items := by
  obtain ⟨overtaken, after, stands, rfl, -, others⟩ := overtaking_iff.mp taken
  rw [← drained_settled apply memory items, stands, drained_append, drained_append, drained_access,
    drained_overtaken commute memory others]

end Memory

end Tyndall.Windows
