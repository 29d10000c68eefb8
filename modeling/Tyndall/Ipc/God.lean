import Mathlib.Data.Fin.VecNotation
import Mathlib.Data.List.FinRange
import Mathlib.Logic.Function.Basic
import Tyndall.Foundation.Runs

/-!
# The god process and its children

`god` forks one process for each entry of a table, forks some of them again when
they exit, and on an interrupt sends the signal on to all of them and removes the
shared memory. Its work is done in two signal handlers. While `child_handler` runs
another SIGCHLD waits, but an interrupt does not: `exit_handler` may begin between
any two statements, and it never returns. Signals do not queue: however many
children exit while SIGCHLD waits, `child_handler` runs once more.

`exit_handler` tells which signal it got before it has SIGCHLD ignored. Up to there
`child_handler` may still run inside of it, unless it was what the interrupt came into
or is not installed yet.

The operating system gives each process a pid that no process had before, and keeps
a process that has exited until it is waited for. While SIGCHLD is ignored it forgets
those that exit at once; what has exited before stays. `god` is built with `DEBUG`, so
`debug_assert` acts on its condition. Names, arguments and what `god` prints are left
out; nothing depends on them.
-/

namespace Tyndall.God

open Runs

variable {n : Nat}

/-- `child`, less its name and arguments. -/
structure Child where
  respawn : Int
  pid : Nat := 0
  alive : Bool := false

/-- What the operating system knows of a process, with the status that `waitpid` gives. -/
inductive Life where
  | absent
  | running
  | zombie (status : Nat)
deriving DecidableEq

/-- Whether a process has exited and can be waited for. -/
def Life.waits : Life → Bool
  | .zombie _ => true
  | .absent | .running => false

/-- The number of the interrupt signal, and of the exit status that it leads to. -/
def sigint : Nat := 2

/-- `respawn_bypass_statuses`. -/
def respawnBypassStatuses : List Nat := [0, sigint]

/-- Where `god` stands: in `main`, in `child_handler` with the last process waited
for or the child it was, in `exit_handler`, or at its end. In front of the statement
that has SIGCHLD ignored, `listens` says whether `child_handler` can begin. -/
inductive Point (n : Nat) where
  | starting (next : Nat)
  | entering (interrupts : Bool)
  | paused
  | reaping (last : Option (Nat × Nat))
  | marking (index : Fin n) (status : Nat)
  | respawning (index : Fin n)
  | recording (index : Fin n) (pid : Nat)
  | raising (index : Fin n)
  | spending (index : Fin n)
  | leaving (listens : Bool)
  | killing (next : Nat)
  | cleaning
  | exited (status : Nat)
  | terminated
deriving DecidableEq

/-- The table of children, the processes by their pids, the next pid, whether a
SIGCHLD waits, whether `exit_handler` has begun, and where `god` stands. -/
structure System (n : Nat) where
  children : Fin n → Child
  processes : Nat → Life := fun _ => .absent
  next : Nat := 1
  pending : Bool := false
  leaving : Bool := false
  point : Point n := .starting 0

/-- A table that nothing has been forked for. -/
def System.initial (respawn : Fin n → Int) : System n :=
  { children := fun index => { respawn := respawn index } }

/-- Replace one entry of the table. -/
def System.setChild (system : System n) (index : Fin n) (child : Child) : System n :=
  { system with children := Function.update system.children index child }

/-- A successful `fork`. -/
def System.fork (system : System n) : System n :=
  { system with
    processes := Function.update system.processes system.next .running
    next := system.next + 1 }

/-- Where `child_handler` returns to: the place that it was called at. -/
def System.home (system : System n) : Point n :=
  if system.leaving then .leaving true else .paused

/-- The search in `child_handler`: the last entry with a pid. -/
def findChild (children : Fin n → Child) (pid : Nat) : Option (Fin n) :=
  (List.finRange n).foldl
    (fun found index => if (children index).pid = pid then some index else found) none

/-- What a step reports. -/
inductive Event (n : Nat) where
  | forked (index : Fin n) (pid : Nat)
  | notForked
  | installed
  | delivered
  | reaped (pid : Nat)
  | found (index : Fin n)
  | unknown
  | marked (pid : Nat)
  | recorded
  | spent
  | interrupted (unmarked : Option Nat)
  | ignored
  | killed (pid : Nat)
  | failed (pid : Nat)
  | skipped
  | cleaned
  | terminated
  | died (pid : Nat)

/-- The pid of a process that is forked but not yet marked alive. -/
def System.unmarked (system : System n) : Option Nat :=
  match system.point with
  | .recording _ pid => some pid
  | .raising index => some (system.children index).pid
  | _ => none

/-- Whether a process that exits leaves a SIGCHLD waiting that is still delivered. -/
def Point.handles : Point n → Bool
  | .paused | .reaping _ | .marking _ _ | .respawning _ | .recording _ _ | .raising _
  | .spending _ => true
  | .leaving listens => listens
  | .starting _ | .entering _ | .killing _ | .cleaning | .exited _ | .terminated => false

/-- Whether SIGCHLD is ignored. -/
def Point.ignores : Point n → Bool
  | .killing _ | .cleaning | .exited _ => true
  | _ => false

/-- Whether `child_handler` will not run any more. -/
def Point.deaf : Point n → Bool
  | .leaving listens => !listens
  | .killing _ | .cleaning | .exited _ => true
  | _ => false

/-- Whether `god` is in `exit_handler` itself, or has exited from there. -/
def Point.departs : Point n → Bool
  | .leaving _ | .killing _ | .cleaning | .exited _ => true
  | _ => false

/-- Whether an interrupt still ends `god` at once. -/
def Point.unhandled : Point n → Bool
  | .starting _ | .entering false => true
  | _ => false

/-- What god does next. Where it forks, the operating system may refuse. The loop of
`waitpid` ends when no process is left to wait for; `debug_assert` ends `god` where a
child cannot be signalled. -/
def advanceGod (system : System n) (allowed : Bool) : Option (Event n × System n) :=
  match system.point with
  | .starting next =>
      if inside : next < n then
        let index : Fin n := ⟨next, inside⟩
        if allowed then
          let child := { system.children index with pid := system.next, alive := true }
          some (.forked index system.next,
            { system.fork.setChild index child with point := .starting (next + 1) })
        else some (.notForked, { system with point := .starting (next + 1) })
      else some (.installed, { system with point := .entering false })
  | .entering false => some (.installed, { system with point := .entering true })
  | .entering true => some (.installed, { system with point := .paused })
  | .reaping last =>
      if ∀ pid < system.next, (system.processes pid).waits = false then
        match last.bind fun (pid, status) =>
            (findChild system.children pid).map fun index => (index, status) with
        | some (index, status) => some (.found index, { system with point := .marking index status })
        | none => some (.unknown, { system with point := system.home })
      else none
  | .marking index status =>
      let child := system.children index
      some (.marked child.pid,
        { system.setChild index { child with alive := false } with
          point := if child.respawn ≠ 0 ∧ status ∉ respawnBypassStatuses then .respawning index
            else system.home })
  | .respawning index =>
      if allowed then
        some (.forked index system.next,
          { system.fork with point := .recording index system.next })
      else some (.notForked, { system with point := .spending index })
  | .recording index pid =>
      some (.recorded, { system.setChild index { system.children index with pid := pid } with
        point := .raising index })
  | .raising index =>
      some (.recorded, { system.setChild index { system.children index with alive := true } with
        point := .spending index })
  | .spending index =>
      let child := system.children index
      some (.spent, { system.setChild index { child with respawn := child.respawn - 1 } with
        point := system.home })
  | .leaving _ => some (.ignored, { system with pending := false, point := .killing 0 })
  | .killing next =>
      if inside : next < n then
        let child := system.children ⟨next, inside⟩
        if child.alive then
          if system.processes child.pid = .absent then
            some (.failed child.pid, { system with point := .exited 1 })
          else some (.killed child.pid, { system with point := .killing (next + 1) })
        else some (.skipped, { system with point := .killing (next + 1) })
      else some (.skipped, { system with point := .cleaning })
  | .cleaning => some (.cleaned, { system with point := .exited sigint })
  | .paused | .exited _ | .terminated => none

/-- What can happen: `god` goes on, `waitpid` returns a process that has exited, a
SIGCHLD that waits or an interrupt is delivered, or a process exits. -/
inductive Action where
  | god (allowed : Bool)
  | reap (pid : Nat)
  | deliver
  | interrupt
  | die (pid status : Nat)

/-- One step. An interrupt ends `god` until `main` has installed `exit_handler`, and
waits for ever once that runs. A SIGCHLD is delivered in `main`, and in `exit_handler`
where that was called from `main`. -/
def advance (system : System n) : Action → Option (Event n × System n)
  | .god allowed => advanceGod system allowed
  | .reap pid =>
      match system.point, system.processes pid with
      | .reaping _, .zombie status =>
          some (.reaped pid,
            { system with
              processes := Function.update system.processes pid .absent
              point := .reaping (some (pid, status)) })
      | _, _ => none
  | .deliver =>
      match system.point, system.pending with
      | .paused, true | .leaving true, true =>
          some (.delivered, { system with pending := false, point := .reaping none })
      | _, _ => none
  | .interrupt =>
      if system.point.unhandled then some (.terminated, { system with point := .terminated })
      else if system.leaving ∨ system.point = .terminated then none
      else some (.interrupted system.unmarked,
        { system with leaving := true, point := .leaving (system.point = .paused) })
  | .die pid status =>
      match system.processes pid with
      | .running =>
          some (.died pid,
            { system with
              processes := Function.update system.processes pid
                (if system.point.ignores then .absent else .zombie status)
              pending := system.pending || system.point.handles })
      | _ => none

/-- The steps of `god` and its children. -/
abbrev Step : System n → Event n → System n → Prop := Steps advance

section Search

/-- The search finds the last index that passes a test, where one does. -/
theorem foldl_last {Index : Type} (test : Index → Prop) [DecidablePred test]
    (indices : List Index) (start : Option Index) :
    (∃ index ∈ indices, test index ∧
      indices.foldl (fun found index => if test index then some index else found) start =
        some index) ∨
    ((∀ index ∈ indices, ¬ test index) ∧
      indices.foldl (fun found index => if test index then some index else found) start =
        start) := by
  induction indices generalizing start with
  | nil => exact .inr ⟨by simp, rfl⟩
  | cons first rest inductionHypothesis =>
    rw [List.foldl_cons]
    obtain ⟨index, among, passes, found⟩ | ⟨none, found⟩ :=
      inductionHypothesis (if test first then some first else start)
    · exact .inl ⟨index, List.mem_cons_of_mem _ among, passes, found⟩
    · by_cases passes : test first
      · exact .inl ⟨first, List.mem_cons_self .., passes, by rw [found, if_pos passes]⟩
      · refine .inr ⟨?_, by rw [found, if_neg passes]⟩
        intro index among
        rcases List.mem_cons.mp among with rfl | among
        · exact passes
        · exact none index among

/-- What `child_handler` finds has the pid. -/
theorem findChild_some {children : Fin n → Child} {pid : Nat} {index : Fin n}
    (found : findChild children pid = some index) : (children index).pid = pid := by
  obtain ⟨other, -, passes, last⟩ | ⟨-, nothing⟩ :=
    foldl_last (fun index => (children index).pid = pid) (List.finRange n) none
  · obtain rfl : other = index := Option.some.inj (last.symm.trans found)
    exact passes
  · exact absurd (nothing.symm.trans found) (by simp)

/-- It finds something where there is something. -/
theorem findChild_none {children : Fin n → Child} {pid : Nat}
    (found : findChild children pid = none) (index : Fin n) : (children index).pid ≠ pid := by
  obtain ⟨other, -, -, last⟩ | ⟨none, -⟩ :=
    foldl_last (fun index => (children index).pid = pid) (List.finRange n) none
  · exact absurd (last.symm.trans found) (by simp)
  · exact none index (List.mem_finRange index)

end Search

/-- Everything a step can do. -/
inductive Effect (system : System n) : Event n → System n → Prop where
  | forked (next : Nat) (inside : next < n) (stands : system.point = .starting next) :
      Effect system (.forked ⟨next, inside⟩ system.next)
        { system.fork.setChild ⟨next, inside⟩
            { system.children ⟨next, inside⟩ with pid := system.next, alive := true } with
          point := .starting (next + 1) }
  | notForked (next : Nat) (inside : next < n) (stands : system.point = .starting next) :
      Effect system .notForked { system with point := .starting (next + 1) }
  | started (next : Nat) (outside : n ≤ next) (stands : system.point = .starting next) :
      Effect system .installed { system with point := .entering false }
  | installed (stands : system.point = .entering false) :
      Effect system .installed { system with point := .entering true }
  | ready (stands : system.point = .entering true) :
      Effect system .installed { system with point := .paused }
  | delivered (stands : system.point = .paused ∨ system.point = .leaving true)
      (pending : system.pending = true) :
      Effect system .delivered { system with pending := false, point := .reaping none }
  | reaped (pid status : Nat) (last : Option (Nat × Nat)) (stands : system.point = .reaping last)
      (zombie : system.processes pid = .zombie status) :
      Effect system (.reaped pid) { system with
        processes := Function.update system.processes pid .absent
        point := .reaping (some (pid, status)) }
  | found (pid status : Nat) (index : Fin n) (stands : system.point = .reaping (some (pid, status)))
      (nothing : ∀ pid < system.next, (system.processes pid).waits = false)
      (child : (system.children index).pid = pid) :
      Effect system (.found index) { system with point := .marking index status }
  | unknown (last : Option (Nat × Nat)) (stands : system.point = .reaping last)
      (nothing : ∀ pid < system.next, (system.processes pid).waits = false)
      (nobody : ∀ pid status, last = some (pid, status) →
        ∀ index, (system.children index).pid ≠ pid) :
      Effect system .unknown { system with point := system.home }
  | marked (index : Fin n) (status : Nat) (after : Point n)
      (stands : system.point = .marking index status)
      (next : after = if (system.children index).respawn ≠ 0 ∧ status ∉ respawnBypassStatuses then
        .respawning index else system.home) :
      Effect system (.marked (system.children index).pid)
        { system.setChild index { system.children index with alive := false } with point := after }
  | reforked (index : Fin n) (stands : system.point = .respawning index) :
      Effect system (.forked index system.next)
        { system.fork with point := .recording index system.next }
  | refused (index : Fin n) (stands : system.point = .respawning index) :
      Effect system .notForked { system with point := .spending index }
  | recorded (index : Fin n) (pid : Nat) (stands : system.point = .recording index pid) :
      Effect system .recorded
        { system.setChild index { system.children index with pid := pid } with
          point := .raising index }
  | raised (index : Fin n) (stands : system.point = .raising index) :
      Effect system .recorded
        { system.setChild index { system.children index with alive := true } with
          point := .spending index }
  | spent (index : Fin n) (stands : system.point = .spending index) :
      Effect system .spent
        { system.setChild index
            { system.children index with respawn := (system.children index).respawn - 1 } with
          point := system.home }
  | interrupted (handled : system.point.unhandled = false)
      (stays : system.leaving = false) (lives : system.point ≠ .terminated) :
      Effect system (.interrupted system.unmarked)
        { system with leaving := true, point := .leaving (system.point = .paused) }
  | ignored (listens : Bool) (stands : system.point = .leaving listens) :
      Effect system .ignored { system with pending := false, point := .killing 0 }
  | terminated (unhandled : system.point.unhandled = true) :
      Effect system .terminated { system with point := .terminated }
  | killed (next : Nat) (inside : next < n) (stands : system.point = .killing next)
      (alive : (system.children ⟨next, inside⟩).alive = true)
      (present : system.processes (system.children ⟨next, inside⟩).pid ≠ .absent) :
      Effect system (.killed (system.children ⟨next, inside⟩).pid)
        { system with point := .killing (next + 1) }
  | failed (next : Nat) (inside : next < n) (stands : system.point = .killing next)
      (alive : (system.children ⟨next, inside⟩).alive = true)
      (gone : system.processes (system.children ⟨next, inside⟩).pid = .absent) :
      Effect system (.failed (system.children ⟨next, inside⟩).pid)
        { system with point := .exited 1 }
  | skipped (next : Nat) (inside : next < n) (stands : system.point = .killing next)
      (dead : (system.children ⟨next, inside⟩).alive = false) :
      Effect system .skipped { system with point := .killing (next + 1) }
  | swept (next : Nat) (outside : n ≤ next) (stands : system.point = .killing next) :
      Effect system .skipped { system with point := .cleaning }
  | cleaned (stands : system.point = .cleaning) :
      Effect system .cleaned { system with point := .exited sigint }
  | died (pid status : Nat) (running : system.processes pid = .running) :
      Effect system (.died pid) { system with
        processes := Function.update system.processes pid
          (if system.point.ignores then .absent else .zombie status)
        pending := system.pending || system.point.handles }

section Inversion

variable {system next : System n} {event : Event n}

/-- A step of `god` has one of its effects. -/
theorem advanceGod_effect {allowed : Bool}
    (advanced : advanceGod system allowed = some (event, next)) : Effect system event next := by
  unfold advanceGod at advanced
  split at advanced
  · next position stands =>
    split at advanced
    · next inside =>
      split at advanced
      · obtain ⟨rfl, rfl⟩ := Prod.mk.inj (Option.some.inj advanced)
        exact .forked position inside stands
      · obtain ⟨rfl, rfl⟩ := Prod.mk.inj (Option.some.inj advanced)
        exact .notForked position inside stands
    · next outside =>
      obtain ⟨rfl, rfl⟩ := Prod.mk.inj (Option.some.inj advanced)
      exact .started position (Nat.le_of_not_lt outside) stands
  · next stands =>
    obtain ⟨rfl, rfl⟩ := Prod.mk.inj (Option.some.inj advanced)
    exact .installed stands
  · next stands =>
    obtain ⟨rfl, rfl⟩ := Prod.mk.inj (Option.some.inj advanced)
    exact .ready stands
  · next last stands =>
    split at advanced
    · next nothing =>
      split at advanced
      · next index status found =>
        obtain ⟨rfl, rfl⟩ := Prod.mk.inj (Option.some.inj advanced)
        obtain ⟨⟨pid, held⟩, rfl, child⟩ := Option.bind_eq_some_iff.mp found
        obtain ⟨other, here, same⟩ := Option.map_eq_some_iff.mp child
        obtain ⟨rfl, rfl⟩ := Prod.mk.inj same
        exact .found pid held other stands nothing (findChild_some here)
      · next nobody =>
        obtain ⟨rfl, rfl⟩ := Prod.mk.inj (Option.some.inj advanced)
        refine .unknown last stands nothing ?_
        rintro pid status rfl
        exact findChild_none (by simpa using nobody)
    · simp at advanced
  · next index status stands =>
    obtain ⟨rfl, rfl⟩ := Prod.mk.inj (Option.some.inj advanced)
    exact .marked index status _ stands rfl
  · next index stands =>
    split at advanced
    · obtain ⟨rfl, rfl⟩ := Prod.mk.inj (Option.some.inj advanced)
      exact .reforked index stands
    · obtain ⟨rfl, rfl⟩ := Prod.mk.inj (Option.some.inj advanced)
      exact .refused index stands
  · next index pid stands =>
    obtain ⟨rfl, rfl⟩ := Prod.mk.inj (Option.some.inj advanced)
    exact .recorded index pid stands
  · next index stands =>
    obtain ⟨rfl, rfl⟩ := Prod.mk.inj (Option.some.inj advanced)
    exact .raised index stands
  · next index stands =>
    obtain ⟨rfl, rfl⟩ := Prod.mk.inj (Option.some.inj advanced)
    exact .spent index stands
  · next listens stands =>
    obtain ⟨rfl, rfl⟩ := Prod.mk.inj (Option.some.inj advanced)
    exact .ignored listens stands
  · next position stands =>
    split at advanced
    · next inside =>
      dsimp only at advanced
      split at advanced
      · next alive =>
        split at advanced
        · next gone =>
          obtain ⟨rfl, rfl⟩ := Prod.mk.inj (Option.some.inj advanced)
          exact .failed position inside stands alive gone
        · next present =>
          obtain ⟨rfl, rfl⟩ := Prod.mk.inj (Option.some.inj advanced)
          exact .killed position inside stands alive present
      · next dead =>
        obtain ⟨rfl, rfl⟩ := Prod.mk.inj (Option.some.inj advanced)
        exact .skipped position inside stands (Bool.eq_false_iff.mpr dead)
    · next outside =>
      obtain ⟨rfl, rfl⟩ := Prod.mk.inj (Option.some.inj advanced)
      exact .swept position (Nat.le_of_not_lt outside) stands
  · next stands =>
    obtain ⟨rfl, rfl⟩ := Prod.mk.inj (Option.some.inj advanced)
    exact .cleaned stands
  · simp at advanced
  · simp at advanced
  · simp at advanced

/-- Every step has one of the listed effects. -/
theorem step_effect (taken : Step system event next) : Effect system event next := by
  obtain ⟨action, advanced⟩ := taken
  cases action with
  | god allowed => exact advanceGod_effect advanced
  | reap pid =>
    simp only [advance] at advanced
    split at advanced
    · next last status stands zombie =>
      obtain ⟨rfl, rfl⟩ := Prod.mk.inj (Option.some.inj advanced)
      exact .reaped pid status last stands zombie
    · simp at advanced
  | deliver =>
    simp only [advance] at advanced
    split at advanced
    · next stands pending =>
      obtain ⟨rfl, rfl⟩ := Prod.mk.inj (Option.some.inj advanced)
      exact .delivered (.inl stands) pending
    · next stands pending =>
      obtain ⟨rfl, rfl⟩ := Prod.mk.inj (Option.some.inj advanced)
      exact .delivered (.inr stands) pending
    · simp at advanced
  | interrupt =>
    simp only [advance] at advanced
    split at advanced
    · next unhandled =>
      obtain ⟨rfl, rfl⟩ := Prod.mk.inj (Option.some.inj advanced)
      exact .terminated unhandled
    · next handled =>
      split at advanced
      · simp at advanced
      · next running =>
        obtain ⟨rfl, rfl⟩ := Prod.mk.inj (Option.some.inj advanced)
        obtain ⟨stays, lives⟩ := not_or.mp running
        exact .interrupted (Bool.eq_false_iff.mpr handled) (Bool.eq_false_iff.mpr stays) lives
  | die pid status =>
    simp only [advance] at advanced
    split at advanced
    · next running =>
      obtain ⟨rfl, rfl⟩ := Prod.mk.inj (Option.some.inj advanced)
      exact .died pid status running
    · simp at advanced

end Inversion

/-- Until an interrupt is handled nothing is forked without being marked alive, and
`exit_handler` has not begun. -/
theorem System.unhandled_quiet {system : System n} (unhandled : system.point.unhandled = true) :
    system.unmarked = none ∧ system.point.departs = false := by
  unfold Point.unhandled at unhandled
  split at unhandled
  · next stands => simp [System.unmarked, stands, Point.departs]
  · next stands => simp [System.unmarked, stands, Point.departs]
  · simp at unhandled

section Points

variable {point : Point n}

/-- Where `exit_handler` has not begun, `child_handler` may still run. -/
theorem Point.deaf_stays (stays : point.departs = false) : point.deaf = false := by
  cases point <;> simp_all [Point.departs, Point.deaf]

/-- Where `child_handler` may still run, SIGCHLD is not ignored. -/
theorem Point.ignores_open (runs : point.deaf = false) : point.ignores = false := by
  cases point <;> simp_all [Point.deaf, Point.ignores]

/-- `child_handler` returns to `main` or to `exit_handler`. -/
theorem System.home_cases (system : System n) :
    system.home = .paused ∨ system.home = .leaving true := by
  cases leaves : system.leaving <;> simp [System.home, leaves]

/-- Where it is not running nothing is forked without being marked alive. -/
theorem System.unmarked_home {system : System n}
    (stands : system.point = .paused ∨ system.point = .leaving true) : system.unmarked = none := by
  rcases stands with stands | stands <;> simp [System.unmarked, stands]

/-- It may run again there. -/
@[simp] theorem System.home_deaf (system : System n) : system.home.deaf = false := by
  cases leaves : system.leaving <;> simp [System.home, leaves, Point.deaf]

/-- It returns to `exit_handler` where that has begun. -/
@[simp] theorem System.home_departs (system : System n) : system.home.departs = system.leaving := by
  cases leaves : system.leaving <;> simp [System.home, leaves, Point.departs]

end Points

end Tyndall.God
