/-!
# Growing arrays of objects that are moved

An object that owns something cannot be copied, only moved: the new object takes
over what is owned, and the source is left to be destroyed. An array that grows
moves its objects to new storage whenever the old storage is full, and destroys
what is left of them. If moving carries an object over whole, and destroying what
a move has left does nothing, then appending appends and touches nothing else,
whenever and however often the storage grows.
-/

namespace Tyndall.Moves

universe u v
variable {Object : Type u} {World : Type v}

/-- How objects are moved and destroyed. Moving yields the new object and what is
left of the source. -/
structure Movable (Object : Type u) (World : Type v) where
  move : Object → Object × Object
  destroy : Object → World → World

/-- Moving carries an object over, and leaves nothing to destroy. -/
structure Movable.Lawful (movable : Movable Object World) : Prop where
  carries : ∀ object, (movable.move object).1 = object
  empties : ∀ object world, movable.destroy (movable.move object).2 world = world

/-- An array with room for a number of objects. -/
structure GrowingArray (Object : Type u) where
  items : List Object := []
  capacity : Nat := 0

/-- Move objects to new storage and destroy what is left of them. -/
def relocate (movable : Movable Object World) : List Object → World → List Object × World
  | [], world => ([], world)
  | object :: rest, world =>
      let (moved, source) := movable.move object
      let world := movable.destroy source world
      let (rest, world) := relocate movable rest world
      (moved :: rest, world)

/-- Append an object that is moved from a temporary. Without room, the storage
grows, and the new object is moved there before the others are. The result is the
array, what is left of the temporary, and the world. -/
def pushBack (movable : Movable Object World) (growth : Nat → Nat) (array : GrowingArray Object)
    (temporary : Object) (world : World) : GrowingArray Object × Object × World :=
  let size := array.items.length
  let (last, left) := movable.move temporary
  if size < array.capacity then
    ({ array with items := array.items ++ [last] }, left, world)
  else
    let (moved, world) := relocate movable array.items world
    ({ items := moved ++ [last], capacity := max (growth size) (size + 1) }, left, world)

/-- Moving to new storage keeps the objects and touches nothing else. -/
theorem relocate_eq {movable : Movable Object World} (lawful : movable.Lawful)
    (objects : List Object) (world : World) :
    relocate movable objects world = (objects, world) := by
  induction objects with
  | nil => rfl
  | cons object rest inductionHypothesis =>
    simp only [relocate, lawful.carries, lawful.empties, inductionHypothesis]

/-- Appending appends, whether or not the storage grows, and what is left of the
temporary is destroyed without effect. -/
theorem pushBack_eq {movable : Movable Object World} (lawful : movable.Lawful)
    (growth : Nat → Nat) (array : GrowingArray Object) (temporary : Object) (world : World) :
    ∃ capacity, pushBack movable growth array temporary world =
      ({ items := array.items ++ [temporary], capacity := capacity },
        (movable.move temporary).2, world) := by
  by_cases room : array.items.length < array.capacity
  · refine ⟨array.capacity, ?_⟩
    simp only [pushBack, room, if_true, lawful.carries]
  · refine ⟨max (growth array.items.length) (array.items.length + 1), ?_⟩
    simp only [pushBack, room, if_false, lawful.carries, relocate_eq lawful]

end Tyndall.Moves
