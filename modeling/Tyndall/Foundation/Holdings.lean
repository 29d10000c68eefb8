import Mathlib.Data.Finset.Union
import Mathlib.Logic.Function.Basic

/-!
# Holdings without overlap or loss

Owners hold sets of cells. The cells in use are accounted for when each is held,
and by one owner alone. Taking unused cells, handing a holding over to an owner
without one, and giving a whole holding back keep the account.
-/

namespace Tyndall.Holdings

universe u v w
variable {Owner : Type u} {Cell : Type v}

/-- The cells in use are what the owners hold, and no two hold a cell in common. -/
structure Accounted (held : Owner → Finset Cell) (used : Finset Cell) : Prop where
  within : ∀ owner, held owner ⊆ used
  apart : ∀ owner other, owner ≠ other → Disjoint (held owner) (held other)
  covered : ∀ cell ∈ used, ∃ owner, cell ∈ held owner

variable {held : Owner → Finset Cell} {used : Finset Cell}

/-- Where nothing is in use nothing is held. -/
theorem accounted_empty : Accounted (fun _ : Owner => (∅ : Finset Cell)) ∅ where
  within _ := Finset.Subset.refl _
  apart _ _ _ := Finset.disjoint_empty_left _
  covered _ member := absurd member (Finset.notMem_empty _)

/-- Every cell in use has exactly one owner. -/
theorem Accounted.one_owner (accounted : Accounted held used) {cell : Cell} (member : cell ∈ used) :
    ∃! owner, cell ∈ held owner := by
  obtain ⟨owner, own⟩ := accounted.covered cell member
  refine ⟨owner, own, fun other also => ?_⟩
  by_contra different
  exact Finset.disjoint_left.mp (accounted.apart other owner different) also own

/-- Once nobody holds anything, nothing is in use. -/
theorem Accounted.none_used (accounted : Accounted held used) (empty : ∀ owner, held owner = ∅) :
    used = ∅ := by
  rw [Finset.eq_empty_iff_forall_notMem]
  intro cell member
  obtain ⟨owner, own⟩ := accounted.covered cell member
  rw [empty owner] at own
  exact Finset.notMem_empty _ own

variable [DecidableEq Owner]

/-- What the owners hold once one has handed its holding over to another. -/
def handedOver (held : Owner → Finset Cell) (source target : Owner) : Owner → Finset Cell :=
  Function.update (Function.update held target (held source)) source ∅

variable [DecidableEq Cell]

omit [DecidableEq Cell] in
/-- When one owner's holding changes to cells that no other holds, the holdings
stay apart. -/
theorem apart_update (apart : ∀ owner other, owner ≠ other → Disjoint (held owner) (held other))
    (owner : Owner) (cells : Finset Cell)
    (fresh : ∀ other, other ≠ owner → Disjoint cells (held other)) (first second : Owner)
    (different : first ≠ second) :
    Disjoint (Function.update held owner cells first) (Function.update held owner cells second) := by
  by_cases own : first = owner
  · have other : second ≠ owner := own ▸ different.symm
    rw [own, Function.update_self, Function.update_of_ne other]
    exact fresh second other
  · rw [Function.update_of_ne own]
    by_cases other : second = owner
    · rw [other, Function.update_self]
      exact (fresh first own).symm
    · rw [Function.update_of_ne other]
      exact apart first second different

/-- An owner that holds nothing takes unused cells. -/
theorem Accounted.take (accounted : Accounted held used) (owner : Owner) (empty : held owner = ∅)
    (cells : Finset Cell) (unused : Disjoint cells used) :
    Accounted (Function.update held owner cells) (used ∪ cells) := by
  constructor
  · intro other
    by_cases own : other = owner
    · rw [own, Function.update_self]
      exact Finset.subset_union_right
    · rw [Function.update_of_ne own]
      exact (accounted.within other).trans Finset.subset_union_left
  · apply apart_update accounted.apart
    exact fun other _ => unused.mono_right (accounted.within other)
  · intro cell member
    rcases Finset.mem_union.mp member with before | new
    · obtain ⟨holder, own⟩ := accounted.covered cell before
      have different : holder ≠ owner := by
        rintro rfl
        rw [empty] at own
        exact Finset.notMem_empty _ own
      exact ⟨holder, by rwa [Function.update_of_ne different]⟩
    · exact ⟨owner, by rwa [Function.update_self]⟩

/-- An owner gives its whole holding back. -/
theorem Accounted.giveBack (accounted : Accounted held used) (owner : Owner) :
    Accounted (Function.update held owner ∅) (used \ held owner) := by
  constructor
  · intro other
    by_cases own : other = owner
    · rw [own, Function.update_self]
      exact Finset.empty_subset _
    · rw [Function.update_of_ne own]
      exact Finset.subset_sdiff.mpr ⟨accounted.within other, accounted.apart other owner own⟩
  · apply apart_update accounted.apart
    exact fun other _ => Finset.disjoint_empty_left _
  · intro cell member
    obtain ⟨inside, kept⟩ := Finset.mem_sdiff.mp member
    obtain ⟨holder, own⟩ := accounted.covered cell inside
    have different : holder ≠ owner := by
      rintro rfl
      exact kept own
    exact ⟨holder, by rwa [Function.update_of_ne different]⟩

/-- A holding is handed over to an owner that holds nothing, be it the same one. -/
theorem Accounted.handOver (accounted : Accounted held used) (source target : Owner)
    (empty : held target = ∅) : Accounted (handedOver held source target) used := by
  by_cases same : target = source
  · have nothing : handedOver held source target = held := by
      rw [handedOver, ← same, Function.update_idem, ← empty, Function.update_eq_self]
    rwa [nothing]
  · -- The holding is given back by its old owner and taken by the new one.
    have given := accounted.giveBack source
    have still_empty : Function.update held source ∅ target = ∅ :=
      (Function.update_of_ne same _ _).trans empty
    have taken := given.take target still_empty (held source) Finset.disjoint_sdiff
    have returned : used \ held source ∪ held source = used :=
      Finset.sdiff_union_of_subset (accounted.within source)
    rwa [returned, Function.update_comm (Ne.symm same)] at taken

section Resources

variable {Resource : Type w} (footprint : Resource → Finset Cell)
  {holding : Owner → Option Resource}

/-- The cells of owners that hold at most one resource each. -/
def cellsOf (footprint : Resource → Finset Cell) (holding : Owner → Option Resource)
    (owner : Owner) : Finset Cell :=
  (holding owner).elim ∅ footprint

omit [DecidableEq Cell] in
/-- What is held changes with the resource, for its owner alone. -/
theorem cellsOf_update (owner : Owner) (resource : Option Resource) :
    cellsOf footprint (Function.update holding owner resource) =
      Function.update (cellsOf footprint holding) owner (resource.elim ∅ footprint) := by
  funext other
  exact Function.apply_update (fun _ held => held.elim ∅ footprint) holding owner resource other

omit [DecidableEq Owner] [DecidableEq Cell] in
/-- An owner without a resource holds no cell. -/
theorem cellsOf_none {owner : Owner} (empty : holding owner = none) :
    cellsOf footprint holding owner = ∅ := by
  rw [cellsOf, empty]
  rfl

/-- An owner without a resource acquires one with unused cells. -/
theorem Accounted.acquire (accounted : Accounted (cellsOf footprint holding) used) {owner : Owner}
    (empty : holding owner = none) (resource : Resource)
    (unused : Disjoint (footprint resource) used) :
    Accounted (cellsOf footprint (Function.update holding owner (some resource)))
      (used ∪ footprint resource) := by
  rw [cellsOf_update]
  exact accounted.take owner (cellsOf_none footprint empty) _ unused

/-- An owner releases its resource. -/
theorem Accounted.release (accounted : Accounted (cellsOf footprint holding) used) {owner : Owner}
    {resource : Resource} (own : holding owner = some resource) :
    Accounted (cellsOf footprint (Function.update holding owner none))
      (used \ footprint resource) := by
  have held : cellsOf footprint holding owner = footprint resource := by
    rw [cellsOf, own]
    rfl
  rw [cellsOf_update, ← held]
  exact accounted.giveBack owner

/-- A resource passes to an owner without one. -/
theorem Accounted.pass (accounted : Accounted (cellsOf footprint holding) used)
    (source : Owner) {target : Owner} (empty : holding target = none) :
    Accounted (cellsOf footprint
      (Function.update (Function.update holding target (holding source)) source none)) used := by
  rw [cellsOf_update, cellsOf_update]
  exact accounted.handOver source target (cellsOf_none footprint empty)

end Resources

end Tyndall.Holdings
