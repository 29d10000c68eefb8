import Tyndall.Foundation.Holdings
import Tyndall.Foundation.Pages
import Tyndall.Ipc.RegistryBuffers

/-!
# The pages of a process's buffers

The system maps and unmaps whole pages. `shmem_buf::init` maps the data structure
and the tailer behind it, and `shmem_buf::uninit` unmaps the data structure alone.
Both lengths are rounded up to the same pages unless the data structure fills whole
pages: then the tailer has one more page to itself, which no buffer ever unmaps.

A run of one process constructs, initialises, moves and destroys buffers of several
kinds in any order. The mappings are owned by the buffers that hold a pointer to
them, one each, as long as no kind fills whole pages and `init`, which releases
nothing, is not called on a buffer that holds a mapping that was moved into it.
-/

namespace Tyndall.Ipc.Paged

open Holdings Pages Runs

/-- What `getpagesize` returns. `init` asserts that it is made up of cache lines. -/
structure PageSize where
  bytes : Nat
  positive : 0 < bytes
  cachelines : cachelineBytes ∣ bytes

/-- What `init` has mapped: the pages, and where the mappings start that have not
been unmapped since. -/
structure Space where
  pages : Finset Nat := ∅
  mappings : Finset Nat := ∅

/-- A live buffer. `blank` is a buffer that was constructed without an id and has
not been initialised. -/
structure Buffer (Kind : Type) where
  kind : Kind
  transport : Mapped.ShmemBuf
  blank : Bool := false

/-- The shared memory, and a process with its mappings and its buffers. -/
structure Process (Kind : Type) where
  shm : Shm := {}
  space : Space := {}
  buffers : Nat → Option (Buffer Kind) := fun _ => none

section Calls

variable {Kind : Type} (page : PageSize) (types : Kind → StorageType)

/-- `mmap`. The system chooses the address: the start of pages that are not in use,
and not null. -/
def Space.mmap (space : Space) (address length : Nat) : Option Space :=
  let pages := pagesOf page.bytes address length
  if address ≠ 0 ∧ page.bytes ∣ address ∧ Disjoint pages space.pages then
    some { pages := space.pages ∪ pages, mappings := space.mappings ∪ {address} }
  else none

/-- `munmap`. -/
def Space.munmap (space : Space) (address length : Nat) : Space :=
  { pages := space.pages \ pagesOf page.bytes address length,
    mappings := space.mappings \ {address} }

/-- `shmem_buf::init`: the pointer becomes that of the new mapping. -/
def Buffer.init (self : Buffer Kind) (process : Process Kind) (id : Name) (address : Nat) :
    Option (Buffer Kind × Process Kind) := do
  let (_, shm) ← shmemBufInit process.shm (types self.kind) id
  let space ← process.space.mmap page address (types self.kind).objectSize
  pure ({ self with transport := { self.transport with buf := some address }, blank := false },
    { process with shm := shm, space := space })

/-- `shmem_buf::uninit`. The pointer of a mapping is never `(void*)-1`. -/
def Buffer.uninit (self : Buffer Kind) (space : Space) : Space :=
  match self.transport.buf with
  | none => space
  | some address => space.munmap page address (types self.kind).sizeofLock

/-- What a process does with its buffers, each named by its place, and what others
do to the shared memory. Both constructors `init` a buffer that has an id, at run
time or at compile time. -/
inductive Action (Kind : Type) where
  | construct (object : Nat) (kind : Kind) (id : Name) (address : Nat)
  | defaultConstruct (object : Nat) (kind : Kind)
  | init (object : Nat) (id : Name) (address : Nat)
  | moveConstruct (object source : Nat)
  | moveAssign (object source : Nat)
  | destroy (object : Nat)
  | others (shm : Shm)

/-- Put a buffer in its place, or leave the place empty. -/
def Process.put (process : Process Kind) (object : Nat) (buffer : Option (Buffer Kind)) :
    Process Kind :=
  { process with buffers := Function.update process.buffers object buffer }

variable [DecidableEq Kind]

/-- Execute one action. A buffer is constructed where there is none, `init` is called
on blank buffers, and buffers are moved to their own kind. -/
def perform (process : Process Kind) : Action Kind → Option (Process Kind)
  | .construct object kind id address =>
      match process.buffers object with
      | some _ => none
      | none => do
          let (buffer, process) ←
            Buffer.init page types { kind := kind, transport := { buf := none } } process id address
          pure (process.put object (some buffer))
  | .defaultConstruct object kind =>
      match process.buffers object with
      | some _ => none
      | none =>
          let buffer := { kind := kind, transport := { buf := none }, blank := true }
          some (process.put object (some buffer))
  | .init object id address => do
      let self ← process.buffers object
      if self.blank then
        let (buffer, process) ← self.init page types process id address
        pure (process.put object (some buffer))
      else none
  | .moveConstruct object source =>
      match process.buffers object with
      | some _ => none
      | none => do
          let other ← process.buffers source
          let (transport, left) := other.transport.move
          let process := process.put object (some { kind := other.kind, transport := transport })
          pure (process.put source (some { other with transport := left }))
  | .moveAssign object source => do
      let self ← process.buffers object
      let other ← process.buffers source
      if self.kind = other.kind then
        let process := { process with space := self.uninit page types process.space }
        let (transport, left) := other.transport.move
        let process := process.put object (some { self with transport := transport })
        -- In a self-assignment the source is the buffer that was just assigned to.
        pure (process.put source
          (some { kind := other.kind, transport := left, blank := other.blank }))
      else none
  | .destroy object => do
      let self ← process.buffers object
      pure ({ process with space := self.uninit page types process.space }.put object none)
  | .others shm => some { process with shm := shm }

/-- A step of the process. -/
def step (process : Process Kind) (action : Action Kind) (next : Process Kind) : Prop :=
  perform page types process action = some next

end Calls

section Ownership

variable {Kind : Type} (page : PageSize) (types : Kind → StorageType)

/-- The mapping that a buffer holds: its kind and the pointer. -/
def Buffer.holding (self : Buffer Kind) : Option (Kind × Nat) :=
  self.transport.buf.map (fun address => (self.kind, address))

/-- The mappings that the live buffers hold. -/
def Process.holding (process : Process Kind) (object : Nat) : Option (Kind × Nat) :=
  (process.buffers object).bind Buffer.holding

/-- The pages that `init` has mapped for a buffer. -/
def footprint (held : Kind × Nat) : Finset Nat :=
  pagesOf page.bytes held.2 (types held.1).objectSize

/-- Each mapping belongs to one live buffer, the pages of live buffers are mapped,
and without live buffers no page is. -/
structure Owned (process : Process Kind) : Prop where
  owned_once : ∀ address ∈ process.space.mappings,
    ∃! object, ∃ kind, process.holding object = some (kind, address)
  live_mapped : ∀ object held, process.holding object = some held →
    footprint page types held ⊆ process.space.pages
  none_left : (∀ object, process.buffers object = none) → process.space.pages = ∅

/-- `init` is called on buffers that hold no mapping. -/
def KeepsMapping (process : Process Kind) : Action Kind → Prop
  | .init object _ _ => process.holding object = none
  | _ => True

/-- The pages and the mappings in use are accounted for by the live buffers, and
every mapping starts at a page. -/
structure Sound (holding : Nat → Option (Kind × Nat)) (space : Space) : Prop where
  pages : Accounted (cellsOf (footprint page types) holding) space.pages
  mappings : Accounted (cellsOf (fun held => {held.2}) holding) space.mappings
  aligned : ∀ address ∈ space.mappings, page.bytes ∣ address

variable {page types} {holding : Nat → Option (Kind × Nat)} {space : Space}

/-- At the start there are no buffers and no mappings. -/
theorem sound_start : Sound page types (fun _ => none) {} where
  pages := accounted_empty
  mappings := accounted_empty
  aligned _ member := absurd member (Finset.notMem_empty _)

/-- A mapping starts on one of its pages. -/
theorem first_mem_footprint (page : PageSize) (types : Kind → StorageType) (held : Kind × Nat) :
    held.2 / page.bytes ∈ footprint page types held := by
  have tailer := tailer_inside (types held.1)
  exact first_mem_pagesOf page.positive held.2 (by omega)

/-- A pointer that a buffer holds is that of a mapping. -/
theorem Sound.mapping_of_holding (sound : Sound page types holding space) {object : Nat}
    {held : Kind × Nat} (own : holding object = some held) : held.2 ∈ space.mappings := by
  apply sound.mappings.within object
  rw [cellsOf, own]
  exact Finset.mem_singleton_self held.2

/-- The page that a mapping starts at is in use. -/
theorem Sound.first_page (sound : Sound page types holding space) {address : Nat}
    (member : address ∈ space.mappings) : address / page.bytes ∈ space.pages := by
  obtain ⟨object, own⟩ := sound.mappings.covered address member
  have inside := sound.pages.within object
  cases held : holding object with
  | none =>
    rw [cellsOf_none _ held] at own
    exact absurd own (Finset.notMem_empty _)
  | some mapping =>
    rw [cellsOf, held] at own inside
    obtain rfl : address = mapping.2 := Finset.mem_singleton.mp own
    exact inside (first_mem_footprint page types mapping)

/-- What `mmap` returns: a new mapping of unused pages at the start of one. -/
theorem mmap_cases {space next : Space} {address length : Nat}
    (mapped : space.mmap page address length = some next) :
    page.bytes ∣ address ∧ Disjoint (pagesOf page.bytes address length) space.pages ∧
      next = {
        pages := space.pages ∪ pagesOf page.bytes address length
        mappings := space.mappings ∪ {address} } := by
  rw [Space.mmap, Option.ite_none_right_eq_some] at mapped
  obtain ⟨⟨_, aligned, unused⟩, new⟩ := mapped
  exact ⟨aligned, unused, (Option.some.inj new).symm⟩

/-- A mapping that is made for a buffer without one is its own. -/
theorem Sound.mmap (sound : Sound page types holding space) {object : Nat}
    (empty : holding object = none) {kind : Kind} {address : Nat} {next : Space}
    (mapped : space.mmap page address (types kind).objectSize = some next) :
    Sound page types (Function.update holding object (some (kind, address))) next := by
  obtain ⟨aligned, unused, rfl⟩ := mmap_cases mapped
  have fresh : address ∉ space.mappings := fun member =>
    Finset.disjoint_left.mp unused (first_mem_footprint page types (kind, address))
      (sound.first_page member)
  constructor
  · exact sound.pages.acquire (footprint page types) empty (kind, address) unused
  · exact sound.mappings.acquire _ empty (kind, address) (Finset.disjoint_singleton_left.mpr fresh)
  · intro other member
    rcases Finset.mem_union.mp member with before | new
    · exact sound.aligned other before
    · rwa [Finset.mem_singleton.mp new]

/-- A data structure that does not fill whole pages ends on the same page as the
tailer behind it, so unmapping it unmaps what was mapped. -/
theorem pagesOf_sizeofLock (type : StorageType) (partial_page : ¬ page.bytes ∣ type.sizeofLock)
    {address : Nat} (aligned : page.bytes ∣ address) :
    pagesOf page.bytes address type.sizeofLock = pagesOf page.bytes address type.objectSize := by
  have lines := Nat.dvd_add (page.cachelines.trans aligned) type.cacheline_dvd_sizeofLock
  have inside : ¬ page.bytes ∣ address + type.sizeofLock :=
    fun whole => partial_page ((Nat.dvd_add_right aligned).mp whole)
  exact (pagesOf_tail page.positive type.tailer_fits.le page.cachelines lines inside).symm

/-- A mapping passes to a buffer without one. -/
theorem Sound.pass (sound : Sound page types holding space) (source : Nat) {target : Nat}
    (empty : holding target = none) :
    Sound page types (Function.update (Function.update holding target (holding source)) source none)
      space where
  pages := sound.pages.pass _ source empty
  mappings := sound.mappings.pass _ source empty
  aligned := sound.aligned

/-- A buffer that has released its mapping takes another one over. Taking over its
own leaves it without any. -/
theorem Sound.assign {target : Nat}
    (released : Sound page types (Function.update holding target none) space) (source : Nat) :
    Sound page types (Function.update (Function.update holding target (holding source)) source none)
      space := by
  have passed := released.pass source (Function.update_self target none holding)
  rw [Function.update_idem] at passed
  by_cases own : source = target
  · rw [own, Function.update_idem] at passed ⊢
    exact passed
  · rwa [Function.update_of_ne own] at passed

/-- Without a buffer no mapping is held. -/
theorem holding_none {process : Process Kind} {object : Nat}
    (missing : process.buffers object = none) : process.holding object = none := by
  rw [Process.holding, missing, Option.bind_none]

/-- What a live buffer holds. -/
theorem holding_some {process : Process Kind} {object : Nat} {buffer : Buffer Kind}
    (standing : process.buffers object = some buffer) :
    process.holding object = buffer.holding := by
  rw [Process.holding, standing, Option.bind_some]

/-- A buffer that is uninitialised gives back all that it holds. -/
theorem Sound.uninit {process : Process Kind}
    (sound : Sound page types process.holding process.space) {object : Nat} {self : Buffer Kind}
    (standing : process.buffers object = some self)
    (partial_page : ¬ page.bytes ∣ (types self.kind).sizeofLock) :
    Sound page types (Function.update process.holding object none)
      (self.uninit page types process.space) := by
  have own := holding_some standing
  cases pointer : self.transport.buf with
  | none =>
    have empty : process.holding object = none := by
      rw [own, Buffer.holding, pointer, Option.map_none]
    rwa [Buffer.uninit, pointer, ← empty, Function.update_eq_self]
  | some address =>
    rw [Buffer.holding, pointer, Option.map_some] at own
    have aligned := sound.aligned address (sound.mapping_of_holding own)
    have same := pagesOf_sizeofLock (types self.kind) partial_page aligned
    rw [Buffer.uninit, pointer]
    constructor
    · show Accounted _ (process.space.pages \ pagesOf _ address _)
      rw [same]
      exact sound.pages.release _ own
    · exact sound.mappings.release _ own
    · exact fun other member => sound.aligned other (Finset.mem_sdiff.mp member).1

/-- A buffer put in its place holds what it holds. -/
@[simp] theorem put_holding (process : Process Kind) (object : Nat)
    (buffer : Option (Buffer Kind)) :
    (process.put object buffer).holding =
      Function.update process.holding object (buffer.bind Buffer.holding) := by
  funext other
  exact Function.apply_update (fun _ standing => standing.bind Buffer.holding) process.buffers
    object buffer other

@[simp] theorem put_space (process : Process Kind) (object : Nat)
    (buffer : Option (Buffer Kind)) : (process.put object buffer).space = process.space := rfl

/-- Initialising a buffer that holds nothing gives it a mapping of its own. -/
theorem Sound.init {process next : Process Kind}
    (sound : Sound page types process.holding process.space) {object : Nat}
    (empty : process.holding object = none) {self buffer : Buffer Kind} {id : Name} {address : Nat}
    (initialised : self.init page types process id address = some (buffer, next)) :
    Sound page types (next.put object (some buffer)).holding next.space := by
  simp only [Buffer.init, Option.bind_eq_bind, Option.bind_eq_some_iff, Option.pure_def,
    Option.some.injEq, Prod.exists, Prod.mk.injEq] at initialised
  obtain ⟨_, shm, _, space, mapped, rfl, rfl⟩ := initialised
  rw [put_holding]
  exact sound.mmap empty mapped

/-- What the account says of the buffers. -/
theorem Sound.owned {process : Process Kind}
    (sound : Sound page types process.holding process.space) : Owned page types process where
  owned_once := by
    intro address member
    have holds : ∀ object, address ∈ cellsOf (fun held => {held.2}) process.holding object ↔
        ∃ kind, process.holding object = some (kind, address) := by
      intro object
      cases held : process.holding object with
      | none => simp [cellsOf, held]
      | some mapping => simp [cellsOf, held, Prod.ext_iff, eq_comm]
    simpa only [holds] using sound.mappings.one_owner member
  live_mapped := by
    intro object held own
    have within := sound.pages.within object
    rwa [cellsOf, own] at within
  none_left := by
    intro destroyed
    exact sound.pages.none_used fun object => cellsOf_none _ (holding_none (destroyed object))

variable [DecidableEq Kind]

/-- Every step keeps the account, as long as no kind fills whole pages and `init` is
called on buffers that hold nothing. -/
theorem Sound.step (partial_page : ∀ kind, ¬ page.bytes ∣ (types kind).sizeofLock)
    {process next : Process Kind} (sound : Sound page types process.holding process.space)
    {action : Action Kind} (keeps : KeepsMapping process action)
    (taken : step page types process action next) :
    Sound page types next.holding next.space := by
  cases action with
  | construct object kind id address =>
    cases standing : process.buffers object with
    | some buffer => simp [Paged.step, perform, standing] at taken
    | none =>
      simp only [Paged.step, perform, standing, Option.bind_eq_bind, Option.bind_eq_some_iff,
        Option.pure_def, Option.some.injEq, Prod.exists] at taken
      obtain ⟨buffer, middle, initialised, rfl⟩ := taken
      exact sound.init (holding_none standing) initialised
  | defaultConstruct object kind =>
    cases standing : process.buffers object with
    | some buffer => simp [Paged.step, perform, standing] at taken
    | none =>
      simp only [Paged.step, perform, standing, Option.some.injEq] at taken
      obtain rfl := taken
      rw [put_holding, put_space, Option.bind_some, Buffer.holding, Option.map_none,
        ← holding_none standing, Function.update_eq_self]
      exact sound
  | init object id address =>
    simp only [Paged.step, perform, Option.bind_eq_bind, Option.bind_eq_some_iff,
      Option.ite_none_right_eq_some, Option.pure_def, Option.some.injEq, Prod.exists] at taken
    obtain ⟨self, _, _, buffer, middle, initialised, rfl⟩ := taken
    exact sound.init keeps initialised
  | moveConstruct object source =>
    cases standing : process.buffers object with
    | some buffer => simp [Paged.step, perform, standing] at taken
    | none =>
      simp only [Paged.step, perform, standing, Option.bind_eq_bind, Option.bind_eq_some_iff,
        Option.pure_def, Option.some.injEq] at taken
      obtain ⟨other, source_standing, rfl⟩ := taken
      have passed := sound.pass source (holding_none standing)
      rw [holding_some source_standing] at passed
      rw [put_holding, put_holding]
      exact passed
  | moveAssign object source =>
    simp only [Paged.step, perform, Option.bind_eq_bind, Option.bind_eq_some_iff,
      Option.ite_none_right_eq_some, Option.pure_def, Option.some.injEq] at taken
    obtain ⟨self, standing, other, source_standing, same_kind, rfl⟩ := taken
    have assigned := (sound.uninit standing (partial_page self.kind)).assign source
    rw [holding_some source_standing, Buffer.holding, ← same_kind] at assigned
    rw [put_holding, put_holding]
    exact assigned
  | destroy object =>
    simp only [Paged.step, perform, Option.bind_eq_bind, Option.bind_eq_some_iff,
      Option.pure_def, Option.some.injEq] at taken
    obtain ⟨self, standing, rfl⟩ := taken
    have released := sound.uninit standing (partial_page self.kind)
    rw [put_holding]
    exact released
  | others shm =>
    obtain rfl : { process with shm := shm } = next := Option.some.inj taken
    exact sound

/-- The account holds after every run of such steps. -/
theorem run_sound (partial_page : ∀ kind, ¬ page.bytes ∣ (types kind).sizeofLock)
    {actions : List (Action Kind)} {process : Process Kind}
    (run : Run (Guarded KeepsMapping (step page types)) {} actions process) :
    Sound page types process.holding process.space :=
  run.invariant (fun _ _ => ()) () (fun _ process => Sound page types process.holding process.space)
    sound_start fun _ _ _ _ sound taken => sound.step partial_page taken.1 taken.2

/-- A buffer whose data structure fills whole pages leaves its last page mapped when
it is destroyed. -/
theorem whole_pages_left (page : PageSize) (types : Kind → StorageType) {kind : Kind}
    (whole : page.bytes ∣ (types kind).sizeofLock) (id : Name) :
    ∃ process, Run (Guarded KeepsMapping (step page types)) {}
        [.construct 0 kind id page.bytes, .destroy 0] process ∧
      (∀ object, process.buffers object = none) ∧
      (page.bytes + (types kind).sizeofLock) / page.bytes ∈ process.space.pages := by
  obtain ⟨object, _, _, opened⟩ := shmemBufInit_missing {} (types kind) id rfl
  have mapped : Space.mmap page {} page.bytes (types kind).objectSize = some {
      pages := ∅ ∪ pagesOf page.bytes page.bytes (types kind).objectSize
      mappings := ∅ ∪ {page.bytes} } :=
    if_pos ⟨page.positive.ne', Nat.dvd_refl _, Finset.disjoint_empty_right _⟩
  have constructed : ∃ first, step page types {} (.construct 0 kind id page.bytes) first ∧
      first.space.pages = pagesOf page.bytes page.bytes (types kind).objectSize ∧
      first.buffers = Function.update (fun _ => none) 0
        (some { kind := kind, transport := { buf := some page.bytes } }) := by
    simp [step, perform, Buffer.init, opened, mapped, Process.put]
  obtain ⟨first, constructed, pages, buffers⟩ := constructed
  have standing : first.buffers 0 =
      some { kind := kind, transport := { buf := some page.bytes } } := by
    rw [buffers, Function.update_self]
  have destroyed : step page types first (.destroy 0)
      ({ first with space :=
          first.space.munmap page page.bytes (types kind).sizeofLock }.put 0 none) := by
    simp [step, perform, standing, Buffer.uninit]
  refine ⟨_, (Run.single ⟨trivial, constructed⟩).snoc _ _ _ _ ⟨trivial, destroyed⟩, ?_, ?_⟩
  · intro other
    simp [Process.put, buffers]
  · have some_tailer := (types kind).tailer_holds
    have tailer_fits := (types kind).tailer_fits.le.trans
      (Nat.le_of_dvd page.positive page.cachelines)
    obtain ⟨mapped_last, kept⟩ := pagesOf_tail_whole page.positive (by omega) tailer_fits
      (Nat.dvd_add (Nat.dvd_refl page.bytes) whole)
    rw [put_space]
    exact Finset.mem_sdiff.mpr ⟨pages ▸ mapped_last, kept⟩

/-- In every run in which `init` is not called on a buffer that holds a mapping, the
mappings are owned once and fully released, if and only if no kind of buffer has a
data structure that fills whole pages. -/
theorem mappings_owned_iff (page : PageSize) (types : Kind → StorageType) :
    (∀ actions process, Run (Guarded KeepsMapping (step page types)) {} actions process →
      Owned page types process) ↔
    ∀ kind, ¬ page.bytes ∣ (types kind).sizeofLock := by
  constructor
  · intro always kind whole
    obtain ⟨process, run, destroyed, left⟩ := whole_pages_left page types whole [97]
    rw [(always _ process run).none_left destroyed] at left
    exact Finset.notMem_empty _ left
  · intro partial_page actions process run
    exact (run_sound partial_page run).owned

/-- Initialising a buffer that holds a mapping loses it: the pointer is overwritten
and nothing is unmapped, as a move assignment would. -/
theorem init_overwrites {process next : Process Kind}
    (sound : Sound page types process.holding process.space) {object : Nat} {held : Kind × Nat}
    (own : process.holding object = some held) {id : Name} {address : Nat}
    (taken : step page types process (.init object id address) next) :
    ¬ Owned page types next := by
  simp only [Paged.step, perform, Buffer.init, Option.bind_eq_bind, Option.bind_eq_some_iff,
    Option.ite_none_right_eq_some, Option.pure_def, Option.some.injEq, Prod.exists,
    Prod.mk.injEq] at taken
  obtain ⟨self, standing, _, buffer, middle, ⟨_, shm, _, space, mapped, rfl, rfl⟩, rfl⟩ := taken
  obtain ⟨_, unused, rfl⟩ := mmap_cases mapped
  intro owned
  have before := sound.mapping_of_holding own
  have different : held.2 ≠ address := by
    rintro rfl
    exact Finset.disjoint_left.mp unused (first_mem_footprint page types (self.kind, held.2))
      (sound.first_page before)
  obtain ⟨owner, ⟨kind, holds⟩, _⟩ := owned.owned_once held.2 (Finset.mem_union_left _ before)
  rw [put_holding] at holds
  by_cases same : owner = object
  · rw [same, Function.update_self] at holds
    obtain ⟨_, pointer⟩ := Prod.mk.inj (Option.some.inj holds)
    exact different pointer.symm
  · rw [Function.update_of_ne same] at holds
    have once := sound.owned.owned_once held.2 before
    exact same (once.unique ⟨kind, holds⟩ ⟨held.1, own⟩)

end Ownership

/-- Pages of four kibibytes. -/
def fourKibibytes : PageSize where
  bytes := 4096
  positive := by decide
  cachelines := by decide

/-- The lock of an `int` that is aligned to 2048 bytes is a page long, so the tailer
stands on a second page, which stays mapped once the only buffer is destroyed. -/
theorem mappings_owned_fails :
    ∃ process, Run (Guarded KeepsMapping (step fourKibibytes (fun _ : Unit => alignedInt))) {}
        [.construct 0 () [97] 4096, .destroy 0] process ∧
      (∀ object, process.buffers object = none) ∧ 2 ∈ process.space.pages ∧
      ¬ Owned fourKibibytes (fun _ : Unit => alignedInt) process := by
  obtain ⟨process, run, destroyed, left⟩ :=
    whole_pages_left fourKibibytes (fun _ : Unit => alignedInt) (by decide) [97]
  have second : (4096 + alignedInt.sizeofLock) / 4096 = 2 := by decide
  have page_left : 2 ∈ process.space.pages := second ▸ left
  refine ⟨process, run, destroyed, page_left, ?_⟩
  intro owned
  rw [owned.none_left destroyed] at page_left
  exact Finset.notMem_empty _ page_left

end Tyndall.Ipc.Paged
