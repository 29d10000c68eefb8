import Tyndall.Reflect.PrintFormat

/-!
# Storage types, their layout and their format

A storage type is a scalar or an aggregate of types, to any depth; a `std::array`
is the aggregate of its elements. The x86-64 ABI aligns a scalar to its size and
an aggregate to its most aligned member, places members in order at the next
offset aligned for them, and rounds an aggregate's size up to its alignment.

`get_format` flattens the same tree into the letters of its scalars and keeps
nothing of its structure.
-/

namespace Tyndall.Reflect

open Tyndall.Alignment

/-- A storage type. -/
inductive Ty where
  | scalar (scalar : Scalar)
  | aggregate (members : List Ty)

/-- `std::array<T, n>`. -/
def Ty.array (element : Ty) (n : Nat) : Ty := .aggregate (List.replicate n element)

mutual

/-- `alignof`. -/
def Ty.align : Ty → Nat
  | .scalar scalar => scalar.sizeof
  | .aggregate members => alignAll members

/-- The alignment of an aggregate with these members. -/
def alignAll : List Ty → Nat
  | [] => 1
  | member :: rest => max member.align (alignAll rest)

end

mutual

/-- `sizeof`. No object has size zero. -/
def Ty.size : Ty → Nat
  | .scalar scalar => scalar.sizeof
  | .aggregate members => alignUp (max 1 (endOf members 0)) (alignAll members)

/-- Where the last of these members ends when they are placed from an offset on. -/
def endOf : List Ty → Nat → Nat
  | [], offset => offset
  | member :: rest, offset => endOf rest (alignUp offset member.align + member.size)

end

mutual

/-- The scalars of a type in declaration order, each with its offset when the
type stands at an offset. -/
def Ty.leaves : Ty → Nat → List (Scalar × Nat)
  | .scalar scalar, base => [(scalar, base)]
  | .aggregate members, base => leavesAll members base 0

/-- The scalars of members placed from an offset on, in an aggregate at `base`. -/
def leavesAll : List Ty → Nat → Nat → List (Scalar × Nat)
  | [], _, _ => []
  | member :: rest, base, offset =>
      member.leaves (base + alignUp offset member.align) ++
        leavesAll rest base (alignUp offset member.align + member.size)

end

/-- `REFLECT_MAX_FIELDS`. -/
def reflectMaxFields : Nat := 30

mutual

/-- `get_format` for a member: its letter where it has one, and the format of its
own members otherwise. An aggregate with too many members does not compile. -/
def Ty.getFormat : Ty → Option (List UInt8)
  | .scalar scalar => some scalar.typeid
  | .aggregate members =>
      if members.length ≤ reflectMaxFields then getFormatAll members else none

/-- `reflection<Lhs, Rhs...>::get_format`. -/
def getFormatAll : List Ty → Option (List UInt8)
  | [] => some []
  | lhs :: rhs => do
      let lhsFormat ← lhs.getFormat
      let rhsFormat ← getFormatAll rhs
      pure (lhsFormat ++ rhsFormat)

end

mutual

/-- The format is the letters of the scalars, wherever the type stands. -/
theorem Ty.getFormat_leaves (type : Ty) (format : List UInt8) (base : Nat)
    (made : type.getFormat = some format) :
    format = (type.leaves base).map (fun leaf => leaf.1.letter) := by
  cases type with
  | scalar scalar =>
    rw [Ty.getFormat, Scalar.typeid_eq, Option.some.injEq] at made
    simp [Ty.leaves, ← made]
  | aggregate members =>
    rw [Ty.getFormat, Option.ite_none_right_eq_some] at made
    rw [Ty.leaves]
    exact getFormatAll_leaves members format base 0 made.2

/-- The same for members placed from any offset on. -/
theorem getFormatAll_leaves (members : List Ty) (format : List UInt8) (base offset : Nat)
    (made : getFormatAll members = some format) :
    format = (leavesAll members base offset).map (fun leaf => leaf.1.letter) := by
  cases members with
  | nil =>
    rw [getFormatAll, Option.some.injEq] at made
    simp [leavesAll, ← made]
  | cons member rest =>
    simp only [getFormatAll, Option.bind_eq_bind, Option.bind_eq_some_iff, Option.pure_def,
      Option.some.injEq] at made
    obtain ⟨first, madeFirst, later, madeLater, rfl⟩ := made
    rw [leavesAll, List.map_append,
      ← member.getFormat_leaves first (base + alignUp offset member.align) madeFirst,
      ← getFormatAll_leaves rest later base _ madeLater]

end

mutual

/-- Alignments are powers of two. -/
theorem Ty.align_power (type : Ty) : ∃ exponent, type.align = 2 ^ exponent := by
  cases type with
  | scalar scalar => exact scalar.sizeof_power
  | aggregate members => exact alignAll_power members

/-- So is the largest alignment of several members. -/
theorem alignAll_power (members : List Ty) : ∃ exponent, alignAll members = 2 ^ exponent := by
  cases members with
  | nil => exact ⟨0, rfl⟩
  | cons member rest =>
    obtain ⟨first, power⟩ := member.align_power
    obtain ⟨second, powerRest⟩ := alignAll_power rest
    rw [alignAll]
    rcases Nat.le_total member.align (alignAll rest) with less | more
    · exact ⟨second, by rw [Nat.max_eq_right less, powerRest]⟩
    · exact ⟨first, by rw [Nat.max_eq_left more, power]⟩

end

theorem alignAll_pos (members : List Ty) : 0 < alignAll members := by
  obtain ⟨exponent, power⟩ := alignAll_power members
  exact power ▸ Nat.two_pow_pos exponent

theorem Ty.align_pos (type : Ty) : 0 < type.align := by
  obtain ⟨exponent, power⟩ := type.align_power
  exact power ▸ Nat.two_pow_pos exponent

/-- What is aligned for an aggregate is aligned for its first member and for the others. -/
theorem align_dvd_alignAll (member : Ty) (rest : List Ty) :
    member.align ∣ alignAll (member :: rest) ∧ alignAll rest ∣ alignAll (member :: rest) := by
  obtain ⟨first, power⟩ := member.align_power
  obtain ⟨second, powerRest⟩ := alignAll_power rest
  obtain ⟨both, powerBoth⟩ := alignAll_power (member :: rest)
  have larger : ∀ {exponent value : Nat}, value = 2 ^ exponent → value ≤ 2 ^ both →
      value ∣ 2 ^ both := by
    rintro exponent _ rfl less
    exact pow_dvd_pow 2 ((Nat.pow_le_pow_iff_right (by decide)).mp less)
  rw [powerBoth]
  refine ⟨larger power ?_, larger powerRest ?_⟩
  · rw [← powerBoth, alignAll]
    exact Nat.le_max_left _ _
  · rw [← powerBoth, alignAll]
    exact Nat.le_max_right _ _

/-- Scalars placed one behind the other between two offsets, each where its size
divides the offset. -/
def Placed : Nat → Nat → List (Scalar × Nat) → Prop
  | start, finish, [] => start ≤ finish
  | start, finish, (scalar, offset) :: rest =>
      start ≤ offset ∧ scalar.sizeof ∣ offset ∧ Placed (offset + scalar.sizeof) finish rest

/-- Room on both sides does no harm. -/
theorem Placed.widen {start finish before after : Nat} {leaves : List (Scalar × Nat)}
    (placed : Placed start finish leaves) (earlier : before ≤ start) (later : finish ≤ after) :
    Placed before after leaves := by
  induction leaves generalizing start before with
  | nil => exact Nat.le_trans earlier (Nat.le_trans placed later)
  | cons leaf rest inductionHypothesis =>
    exact ⟨Nat.le_trans earlier placed.1, placed.2.1,
      inductionHypothesis placed.2.2 (Nat.le_refl _)⟩

/-- Placed scalars fit between their borders. -/
theorem Placed.ordered {start finish : Nat} {leaves : List (Scalar × Nat)}
    (placed : Placed start finish leaves) : start ≤ finish := by
  induction leaves generalizing start with
  | nil => exact placed
  | cons leaf rest inductionHypothesis =>
    exact Nat.le_trans placed.1 (Nat.le_trans (Nat.le_add_right _ _)
      (inductionHypothesis placed.2.2))

/-- One sequence of scalars may follow another. -/
theorem Placed.append {start middle finish : Nat} {first second : List (Scalar × Nat)}
    (placed : Placed start middle first) (following : Placed middle finish second) :
    Placed start finish (first ++ second) := by
  induction first generalizing start with
  | nil => exact following.widen placed (Nat.le_refl _)
  | cons leaf rest inductionHypothesis =>
    exact ⟨placed.1, placed.2.1, inductionHypothesis placed.2.2⟩

mutual

/-- The scalars of a type lie inside it, in order and aligned to their sizes,
wherever the type is aligned. -/
theorem Ty.leaves_placed (type : Ty) (base : Nat) (aligned : type.align ∣ base) :
    Placed base (base + type.size) (type.leaves base) := by
  cases type with
  | scalar scalar =>
    rw [Ty.leaves, Ty.size]
    exact ⟨Nat.le_refl _, aligned, Nat.le_refl _⟩
  | aggregate members =>
    rw [Ty.leaves, Ty.size]
    apply (leavesAll_placed members base 0 aligned).widen (Nat.le_refl _)
    exact Nat.add_le_add_left
      (Nat.le_trans (Nat.le_max_right _ _) (le_alignUp _ (alignAll_pos members))) _

/-- The same for the members of an aggregate. -/
theorem leavesAll_placed (members : List Ty) (base offset : Nat)
    (aligned : alignAll members ∣ base) :
    Placed (base + offset) (base + endOf members offset) (leavesAll members base offset) := by
  cases members with
  | nil => exact Nat.le_refl _
  | cons member rest =>
    obtain ⟨here, later⟩ := align_dvd_alignAll member rest
    have first := member.leaves_placed (base + alignUp offset member.align)
      (Nat.dvd_add (here.trans aligned) (dvd_alignUp _ _))
    have others := leavesAll_placed rest base (alignUp offset member.align + member.size)
      (later.trans aligned)
    rw [leavesAll, endOf]
    rw [← Nat.add_assoc] at others
    refine (first.append others).widen ?_ (Nat.le_refl _)
    exact Nat.add_le_add_left (le_alignUp offset member.align_pos) base

end

end Tyndall.Reflect
