import Tyndall.Ipc.MachineInvariant

/-!
# A cleanup beside running processes

`shmem_unlink_all` reads the directory name by name and unlinks each name that starts
with the prefix, while other processes create, unlink and use names. What `readdir`
returns is settled only for a name that stays in the directory from `opendir` on: it is
returned before the end is reported. A name that is added or removed meanwhile may be
returned or not, and so may any other.

A removal is a step of the machine like any other unlinking, so what holds of every
run of the machine holds of one with cleanups. Unlinking is taken to succeed, as are
opening and reading the directory.
-/

namespace Tyndall.Ipc.Machines

open Runs Meta

/-- The loop of `shmem_unlink_all`: the names that were there from `opendir` on and have
not been returned, and the matching name that is to be unlinked next. -/
structure Scan where
  pending : List Name
  matched : Option Name := none

/-- A name is no longer one that was there all the time, or was returned. -/
def Scan.without (scan : Scan) (name : Name) : Scan :=
  { scan with pending := scan.pending.filter (· ≠ name) }

/-- A machine, and the scan of a cleanup that is running. -/
structure Cleaned (H : Type) (kind : Name → StorageType) where
  machine : Machine H kind := {}
  scan : Option Scan := none

/-- Scheduling choices, and what `readdir` returns. -/
inductive CleanedAction (H : Type) (kind : Name → StorageType) where
  | machine (action : Action H kind)
  | opendir
  | readdir (ent : Option Name)
  | unlink

/-- A step of the machine, or of the cleanup. -/
inductive CleanedEvent (H : Type) (kind : Name → StorageType) where
  | machine (event : Event H kind)
  | opened
  | returned (dirName : Name)
  | removed (dirName : Name)
  | finished

variable {H : Type} {kind : Name → StorageType}

/-- What a step of the machine does to the scan. -/
def Event.disturbs (event : Event H kind) (scan : Scan) : Scan :=
  match event with
  | .unlinked name => scan.without name
  | .acted _ _ _ _ | .created _ _ | .inited _ _ | .vanished _ _ | .peeked _ => scan

variable [DecidableEq H]

/-- One atomic step, with a cleanup of the names that start with `wanted`. The name that
is unlinked is gone afterwards. -/
def Cleaned.perform (wanted : Name) (cleaned : Cleaned H kind) :
    CleanedAction H kind → Option (CleanedEvent H kind × Cleaned H kind)
  | .machine action => do
      let (event, machine) ← cleaned.machine.perform action
      pure (.machine event, { machine := machine, scan := cleaned.scan.map event.disturbs })
  | .opendir =>
      match cleaned.scan with
      | some _ => none
      | none =>
        some (.opened,
          { cleaned with scan := some { pending := cleaned.machine.shm.directory.map Prod.fst } })
  | .readdir (some dirName) =>
      match cleaned.scan with
      | some { pending := pending, matched := none } =>
        some (.returned dirName,
          { cleaned with
            scan := some { pending := pending.filter (· ≠ dirName)
                           matched := if matchesPrefix dirName wanted then some dirName else none } })
      | _ => none
  | .readdir none =>
      match cleaned.scan with
      | some { pending := [], matched := none } =>
          some (.finished, { cleaned with scan := none })
      | _ => none
  | .unlink =>
      match cleaned.scan with
      | some { pending := pending, matched := some dirName } =>
        some (.removed dirName,
          { machine := { cleaned.machine with shm := shmemUnlink cleaned.machine.shm dirName }
            scan := some { pending := pending.filter (· ≠ dirName) } })
      | _ => none

/-- The steps of the machine, those of the cleanup among them. -/
def CleanedEvent.own : CleanedEvent H kind → List (Event H kind)
  | .machine event => [event]
  | .removed dirName => [.unlinked dirName]
  | .opened | .returned _ | .finished => []

/-- Everything a step can do. -/
inductive CleanedEffect (wanted : Name) (cleaned : Cleaned H kind) :
    CleanedEvent H kind → Cleaned H kind → Prop where
  | machine (event : Event H kind) (machine : Machine H kind)
      (taken : Steps Machine.perform cleaned.machine event machine) :
      CleanedEffect wanted cleaned (.machine event)
        { machine := machine, scan := cleaned.scan.map event.disturbs }
  | opened (idle : cleaned.scan = none) :
      CleanedEffect wanted cleaned .opened
        { cleaned with scan := some { pending := cleaned.machine.shm.directory.map Prod.fst } }
  | returned (scan : Scan) (dirName : Name) (running : cleaned.scan = some scan)
      (free : scan.matched = none) :
      CleanedEffect wanted cleaned (.returned dirName)
        { cleaned with
          scan := some { pending := scan.pending.filter (· ≠ dirName)
                         matched := if matchesPrefix dirName wanted then some dirName else none } }
  | removed (scan : Scan) (dirName : Name) (running : cleaned.scan = some scan)
      (chosen : scan.matched = some dirName) :
      CleanedEffect wanted cleaned (.removed dirName)
        { machine := { cleaned.machine with shm := shmemUnlink cleaned.machine.shm dirName }
          scan := some { pending := scan.pending.filter (· ≠ dirName) } }
  | finished (scan : Scan) (running : cleaned.scan = some scan) (all : scan.pending = [])
      (free : scan.matched = none) :
      CleanedEffect wanted cleaned .finished { cleaned with scan := none }

/-- Every step has one of these effects. -/
theorem cleaned_effect {wanted : Name} {cleaned next : Cleaned H kind} {event : CleanedEvent H kind}
    (taken : Steps (Cleaned.perform wanted) cleaned event next) :
    CleanedEffect wanted cleaned event next := by
  obtain ⟨action, performed⟩ := taken
  cases action with
  | machine action =>
    simp only [Cleaned.perform, Option.bind_eq_bind, Option.bind_eq_some_iff, Option.pure_def,
      Option.some.injEq, Prod.exists, Prod.mk.injEq] at performed
    obtain ⟨own, machine, stepped, rfl, rfl⟩ := performed
    exact .machine own machine ⟨action, stepped⟩
  | opendir =>
    simp only [Cleaned.perform] at performed
    split at performed
    · cases performed
    · next idle =>
      simp only [Option.some.injEq, Prod.mk.injEq] at performed
      obtain ⟨rfl, rfl⟩ := performed
      exact .opened idle
  | readdir ent =>
    cases ent with
    | some dirName =>
      simp only [Cleaned.perform] at performed
      split at performed
      · next pending running =>
        simp only [Option.some.injEq, Prod.mk.injEq] at performed
        obtain ⟨rfl, rfl⟩ := performed
        exact .returned _ dirName running rfl
      · cases performed
    | none =>
      simp only [Cleaned.perform] at performed
      split at performed
      · next running =>
        simp only [Option.some.injEq, Prod.mk.injEq] at performed
        obtain ⟨rfl, rfl⟩ := performed
        exact .finished _ running rfl rfl
      · cases performed
  | unlink =>
    simp only [Cleaned.perform] at performed
    split at performed
    · next pending dirName running =>
      simp only [Option.some.injEq, Prod.mk.injEq] at performed
      obtain ⟨rfl, rfl⟩ := performed
      exact .removed _ dirName running rfl
    · cases performed

/-- A cleanup is steps of the machine. -/
theorem cleaned_machine {wanted : Name} {start final : Cleaned H kind}
    {events : List (CleanedEvent H kind)}
    (run : Run (Steps (Cleaned.perform wanted)) start events final) :
    Run (Steps Machine.perform) start.machine (projected CleanedEvent.own events) final.machine := by
  have projects : ∃ machine, Run (Steps Machine.perform) start.machine
      (projected CleanedEvent.own events) machine ∧ machine = final.machine := by
    refine run.projects CleanedEvent.own (fun cleaned machine => machine = cleaned.machine) rfl ?_
    rintro cleaned event next _ rfl taken
    cases cleaned_effect taken with
    | machine event machine stepped => exact ⟨machine, .single stepped, rfl⟩
    | removed scan dirName => exact ⟨_, .single ⟨.unlink dirName, rfl⟩, rfl⟩
    | opened | returned | finished => exact ⟨_, .refl, rfl⟩
  obtain ⟨machine, own, rfl⟩ := projects
  exact own

/-- Objects are numbered in the order of their creation. -/
theorem next_grows {machine next : Machine H kind} {event : Event H kind}
    (effect : Effect machine event next) : machine.shm.next ≤ next.shm.next := by
  have opening : ∀ name, machine.shm.next ≤ (machine.openName name).2.shm.next := by
    intro name
    rcases openName_cases machine name with ⟨found, leads, opened⟩ | ⟨nowhere, opened⟩
    · rw [opened]
    · rw [opened]
      exact Nat.le_succ _
  cases effect with
  | created name h => exact opening name
  | peeked name => exact opening name
  | _ => exact Nat.le_refl _

/-- A name leads to an object that is there as long as nobody unlinks it, and once it no
longer does it never does again. -/
theorem find_kept {machine next : Machine H kind} {event : Event H kind}
    (effect : Effect machine event next) (name : Name) {object : Nat}
    (old : object < machine.shm.next) :
    next.shm.find name = some object ↔
      machine.shm.find name = some object ∧ event ≠ .unlinked name := by
  have opening : ∀ other, (machine.openName other).2.shm.find name = some object ↔
      machine.shm.find name = some object := by
    intro other
    rcases openName_cases machine other with ⟨found, leads, opened⟩ | ⟨nowhere, opened⟩
    · rw [opened]
    · rw [opened, Shm.find, List.lookup_cons]
      by_cases here : name = other
      · have new : machine.shm.next ≠ object := Nat.ne_of_gt old
        simp [here, nowhere, new]
      · rw [beq_false_of_ne here]
        rfl
  cases effect with
  | created other h => simpa using opening other
  | peeked other => simpa using opening other
  | unlinked other =>
    rw [find_unlinked]
    by_cases here : name = other
    · simp [here]
    · simp [here, Ne.symm here]
  | _ => simp [Machine.act, Shm.modify, Shm.find, Machine.put]

omit [DecidableEq H] in
/-- A step of the machine chooses no name for the cleanup. -/
theorem disturbs_matched (event : Event H kind) (scan : Scan) :
    (event.disturbs scan).matched = scan.matched := by
  cases event <;> rfl

omit [DecidableEq H] in
/-- Only a name that is unlinked need not be returned any more. -/
theorem disturbs_pending (event : Event H kind) (scan : Scan) {name : Name}
    (pending : name ∈ scan.pending) (linked : event ≠ .unlinked name) :
    name ∈ (event.disturbs scan).pending := by
  cases event with
  | unlinked other =>
    have different : name ≠ other := fun same => linked (same ▸ rfl)
    exact List.mem_filter.mpr ⟨pending, by simpa using different⟩
  | _ => exact pending

/-- What a running cleanup has achieved since `opendir`: a matching name that still leads
where it led has not been returned, or is the one to be unlinked next, and another name
leads where it led unless a process has unlinked it. -/
structure Sweeps (wanted : Name) (start : Machine H kind) (events : List (CleanedEvent H kind))
    (cleaned : Cleaned H kind) (scan : Scan) : Prop where
  later : start.shm.next ≤ cleaned.machine.shm.next
  running : cleaned.scan = some scan
  chosen : ∀ name, scan.matched = some name → matchesPrefix name wanted = true
  doomed : ∀ name object, start.shm.find name = some object → matchesPrefix name wanted = true →
    cleaned.machine.shm.find name = some object → name ∈ scan.pending ∨ scan.matched = some name
  spared : ∀ name object, start.shm.find name = some object → matchesPrefix name wanted = false →
    .machine (.unlinked name) ∉ events → cleaned.machine.shm.find name = some object

omit [DecidableEq H] in
/-- A name that leads somewhere leads to an object that is there. -/
theorem Kept.old {machine : Machine H kind} (kept : Kept machine) {name : Name} {object : Nat}
    (found : machine.shm.find name = some object) : object < machine.shm.next := by
  by_contra behind
  have made := kept.listed found
  rw [kept.fresh (Nat.le_of_not_lt behind)] at made
  cases made

/-- One step before the end of the directory is reported. -/
theorem sweeps_step {wanted : Name} {start : Machine H kind} {events : List (CleanedEvent H kind)}
    {cleaned next : Cleaned H kind} {scan : Scan} {event : CleanedEvent H kind} (kept : Kept start)
    (sweeps : Sweeps wanted start events cleaned scan)
    (effect : CleanedEffect wanted cleaned event next) (unfinished : event ≠ .finished) :
    ∃ scan, Sweeps wanted start (events ++ [event]) next scan := by
  have there : ∀ {name object}, start.shm.find name = some object →
      object < cleaned.machine.shm.next :=
    fun found => Nat.lt_of_lt_of_le (kept.old found) sweeps.later
  cases effect with
  | machine event machine taken =>
    have effect := machine_effect taken
    refine ⟨event.disturbs scan, Nat.le_trans sweeps.later (next_grows effect), ?_, ?_, ?_, ?_⟩
    · simp [sweeps.running]
    · rw [disturbs_matched]
      exact sweeps.chosen
    · intro name object found matching now
      obtain ⟨before, linked⟩ := (find_kept effect name (there found)).mp now
      rw [disturbs_matched]
      exact (sweeps.doomed name object found matching before).imp_left
        (fun pending => disturbs_pending event scan pending linked)
    · intro name object found other spared
      rw [List.mem_append, List.mem_singleton, not_or] at spared
      refine (find_kept effect name (there found)).mpr
        ⟨sweeps.spared name object found other spared.1, ?_⟩
      rintro rfl
      exact spared.2 rfl
  | opened idle =>
    rw [sweeps.running] at idle
    cases idle
  | returned current dirName running free =>
    obtain rfl := Option.some.inj (sweeps.running.symm.trans running)
    refine ⟨_, sweeps.later, rfl, ?_, ?_, ?_⟩
    · intro name chosen
      obtain ⟨matching, same⟩ := Option.ite_none_right_eq_some.mp chosen
      obtain rfl := Option.some.inj same
      exact matching
    · intro name object found matching now
      have pending := (sweeps.doomed name object found matching now).resolve_right (by simp [free])
      by_cases here : name = dirName
      · exact .inr (by simp [← here, matching])
      · exact .inl (List.mem_filter.mpr ⟨pending, by simpa using here⟩)
    · intro name object found other spared
      exact sweeps.spared name object found other
        (fun earlier => spared (List.mem_append_left _ earlier))
  | removed current dirName running chosen =>
    obtain rfl := Option.some.inj (sweeps.running.symm.trans running)
    refine ⟨_, sweeps.later, rfl, by simp, ?_, ?_⟩
    · intro name object found matching now
      rw [find_unlinked] at now
      split at now
      · cases now
      · next different =>
        have pending := (sweeps.doomed name object found matching now).resolve_right
          (fun same => different (Option.some.inj (same.symm.trans chosen)))
        exact .inl (List.mem_filter.mpr ⟨pending, by simpa using different⟩)
    · intro name object found other spared
      have different : name ≠ dirName := by
        rintro rfl
        rw [sweeps.chosen name chosen] at other
        cases other
      rw [find_unlinked, if_neg different]
      exact sweeps.spared name object found other
        (fun earlier => spared (List.mem_append_left _ earlier))
  | finished => exact absurd rfl unfinished

/-- A cleanup from `opendir` on. -/
theorem sweeps_run {wanted : Name} {start : Machine H kind} {final : Cleaned H kind}
    {during : List (CleanedEvent H kind)} (kept : Kept start)
    (run : Run (Steps (Cleaned.perform wanted))
      { machine := start, scan := some { pending := start.shm.directory.map Prod.fst } } during final)
    (one : .finished ∉ during) : ∃ scan, Sweeps wanted start during final scan := by
  induction run with
  | refl =>
    refine ⟨_, Nat.le_refl _, rfl, by simp, ?_, fun _ _ found _ _ => found⟩
    intro name object found _ _
    obtain ⟨front, back, listed, -⟩ := List.lookup_eq_some_iff.mp found
    rw [listed]
    exact .inl (by simp)
  | snoc events event state next _ taken inductionHypothesis =>
    rw [List.mem_append, List.mem_singleton, not_or] at one
    obtain ⟨scan, sweeps⟩ := inductionHypothesis one.1
    exact sweeps_step kept sweeps (cleaned_effect taken) (Ne.symm one.2)

/-- A cleanup removes what was there. However processes create, unlink, open and use
names while it runs: when a cleanup ends, no name with the prefix leads to the object
any more that it led to when the cleanup began, and every other name still does, unless
a process has unlinked it. It is a run of the machine, with a step of unlinking for each
removal, so buffers that were open keep their objects.

Proof: between the two, a name with the prefix that leads where it led is still to be
returned by `readdir`, or is the one that is unlinked next. An object that no name leads
to is never found again, since a name that is created gets a new object. -/
theorem cleanup_complete (wanted : Name) (before during : List (CleanedEvent H kind))
    (start final : Cleaned H kind) (earlier : Run (Steps (Cleaned.perform wanted)) {} before start)
    (one : .finished ∉ during)
    (run : Run (Steps (Cleaned.perform wanted)) start (.opened :: (during ++ [.finished])) final) :
    (∀ name object, start.machine.shm.find name = some object →
      (matchesPrefix name wanted = true → final.machine.shm.find name ≠ some object) ∧
      (matchesPrefix name wanted = false → .machine (.unlinked name) ∉ during →
        final.machine.shm.find name = some object)) ∧
    Run (Steps Machine.perform) start.machine (projected CleanedEvent.own during) final.machine := by
  have kept : Kept start.machine := run_kept (cleaned_machine earlier)
  obtain ⟨opened, first, rest⟩ := run.head
  obtain ⟨ended, sweeping, finishing⟩ := rest.last
  cases cleaned_effect first with
  | opened idle =>
    obtain ⟨scan, sweeps⟩ := sweeps_run kept sweeping one
    cases cleaned_effect finishing with
    | finished current running all free =>
      obtain rfl := Option.some.inj (sweeps.running.symm.trans running)
      have own := cleaned_machine sweeping
      refine ⟨?_, own⟩
      intro name object found
      refine ⟨fun matching now => ?_, sweeps.spared name object found⟩
      rcases sweeps.doomed name object found matching now with pending | chosen
      · rw [all] at pending
        cases pending
      · rw [free] at chosen
        cases chosen

/-- Two names are created, and while a cleanup runs the first is unlinked and created
again. `readdir` returns it all the same. -/
def sweeping : List (CleanedAction Bool (fun _ => oneInt)) :=
  [.machine (.create (chars "ab") false), .machine (.create (chars "b") false), .opendir,
    .machine (.unlink (chars "ab")), .machine (.create (chars "ab") true), .readdir (some (chars "b")),
    .readdir (some (chars "ab")), .unlink, .machine (.create (chars "ac") true), .readdir none]

/-- The first name leads nowhere, the second where it led, and a third was created
meanwhile. -/
theorem cleanup_complete_sweeping :
    ∃ (start final : Cleaned Bool (fun _ => oneInt)) (events : List (CleanedEvent Bool _)),
    Run (Steps (Cleaned.perform (chars "a"))) start events final ∧
    start.machine.shm.find (chars "ab") = some 0 ∧ start.machine.shm.find (chars "b") = some 1 ∧
    final.machine.shm.find (chars "ab") ≠ some 0 ∧ final.machine.shm.find (chars "b") = some 1 ∧
    final.machine.shm.find (chars "ac") = some 3 := by
  let before : List (CleanedEvent Bool (fun _ => oneInt)) :=
    [.machine (.created (chars "ab") false), .machine (.created (chars "b") false)]
  let during : List (CleanedEvent Bool (fun _ => oneInt)) :=
    [.machine (.unlinked (chars "ab")), .machine (.created (chars "ab") true),
      .returned (chars "b"), .returned (chars "ab"), .removed (chars "ab"),
      .machine (.created (chars "ac") true)]
  obtain ⟨start, final, earlier, run, first, second, third⟩ : ∃ start final,
      execute (Cleaned.perform (chars "a")) {} (sweeping.take 2) = some (before, start) ∧
      execute (Cleaned.perform (chars "a")) start (sweeping.drop 2) =
        some (.opened :: (during ++ [.finished]), final) ∧
      start.machine.shm.find (chars "ab") = some 0 ∧ start.machine.shm.find (chars "b") = some 1 ∧
      final.machine.shm.find (chars "ac") = some 3 :=
    ⟨_, _, rfl, rfl, by decide +kernel, by decide +kernel, by decide +kernel⟩
  have cleaned := (cleanup_complete (chars "a") before during start final
    (execute_run _ _ _ _ _ earlier) (by simp [during]) (execute_run _ _ _ _ _ run)).1
  refine ⟨start, final, _, execute_run _ _ _ _ _ run, first, second, ?_, ?_, third⟩
  · exact (cleaned _ _ first).1 (by decide)
  · have different : chars "b" ≠ chars "ab" := by decide
    exact (cleaned _ _ second).2 (by decide) (by simp [during, different])

end Tyndall.Ipc.Machines
