import Tyndall.Meta.Strval

/-!
# Topic names

A topic id becomes the name of a shared memory object: a constant prefix, the id
without leading slashes and with the other slashes replaced, and a hash of the
stripped id. The name is built twice in the code, at compile time from a `strval`
and at run time from a C string. Both build the same parts in different orders.
The hash is rendered by `to_strval` on one side and by `std::to_string` on the
other, and those differ for zero.
-/

namespace Tyndall.Ipc

open Meta

/-- The character `/`. -/
def slash : UInt8 := 47

/-- The character `_`. -/
def underscore : UInt8 := 95

/-- `IPC_SHMEM_PREFIX`. -/
def ipcShmemPrefix : List UInt8 :=
  chars "ipc" ++ chars "1ef42bc4e0bbfeb0ac34bc3642732768cf6f77b7"

/-- `id_remove_leading_slashes`. -/
def idRemoveLeadingSlashes (id : Strval) : Strval := id.removeLeading slash

/-- `id_hash`: the hash of the whole string, rendered by `to_strval`. -/
def idHash (id : Strval) : Strval := toStrval (hashFnv1a32 id id.length)

/-- `id_replace_slashes_with_underscores`. -/
def idReplaceSlashesWithUnderscores (id : Strval) : Strval := id.replace slash underscore

/-- `id_prepare`, the compile-time name. -/
def idPrepare (id : Strval) : Strval :=
  ipcShmemPrefix ++ [underscore] ++
    idReplaceSlashesWithUnderscores (idRemoveLeadingSlashes id) ++ [underscore] ++
    idHash (idRemoveLeadingSlashes id)

/-- `while (*id == '/') ++id`. -/
def skipSlashes : List UInt8 → List UInt8
  | [] => []
  | c :: rest => if c = slash then skipSlashes rest else c :: rest

/-- `id_rtid_prepare`, the run-time name, from the memory the pointer points to. -/
def idRtidPrepare (memory : List UInt8) : List UInt8 :=
  let id := skipSlashes memory
  let preparedId := ipcShmemPrefix ++ [underscore] ++ cString id ++ [underscore] ++
    decimal (hashFnv1a32 id (cString id).length).toNat
  preparedId.map (fun c => if c = slash then underscore else c)

/-- The run-time loop strips what the compile-time template strips. -/
theorem skipSlashes_eq (id : List UInt8) : skipSlashes id = idRemoveLeadingSlashes id := by
  induction id with
  | nil => rfl
  | cons c rest inductionHypothesis =>
    simp only [skipSlashes, idRemoveLeadingSlashes, Strval.removeLeading, inductionHypothesis]

/-- Stripping leading slashes brings in no NUL. -/
theorem stripped_nulFree (id : List UInt8) (nulFree : 0 ∉ id) : 0 ∉ idRemoveLeadingSlashes id := by
  rw [idRemoveLeadingSlashes, Strval.removeLeading_eq_dropWhile]
  exact fun member => nulFree ((List.dropWhile_sublist _).subset member)

/-- Replacing slashes leaves a text without slashes alone. -/
theorem map_slashFree (text : List UInt8) (slashFree : slash ∉ text) :
    text.map (fun c => if c = slash then underscore else c) = text := by
  have same : ∀ c ∈ text, (if c = slash then underscore else c) = c := by
    intro c member
    have other : c ≠ slash := fun equal => slashFree (equal ▸ member)
    simp [other]
  simpa using List.map_congr_left same

/-- The prefix has no slashes. -/
theorem prefix_slashFree : slash ∉ ipcShmemPrefix := by decide

/-- A decimal number has no slashes. -/
theorem decimal_slashFree (n : Nat) : slash ∉ decimal n := by
  intro member
  exact absurd ((decimal_digits n).2 slash member).1 (by decide)

/-- On a NUL-free id the run-time name has the parts of the compile-time name,
with the hash rendered by `std::to_string`. -/
theorem idRtidPrepare_parts (id : List UInt8) (nulFree : 0 ∉ id) :
    idRtidPrepare id = ipcShmemPrefix ++ [underscore] ++
      idReplaceSlashesWithUnderscores (idRemoveLeadingSlashes id) ++ [underscore] ++
      decimal (hashFnv1a32 (idRemoveLeadingSlashes id)
        (idRemoveLeadingSlashes id).length).toNat := by
  have whole := cString_of_nulFree _ (stripped_nulFree id nulFree)
  simp only [idRtidPrepare, skipSlashes_eq, whole, List.map_append,
    map_slashFree _ prefix_slashFree, map_slashFree _ (decimal_slashFree _)]
  rw [idReplaceSlashesWithUnderscores, Strval.replace_eq_map]
  simp [underscore, slash]

/-- The compile-time name depends on the stripped id only. -/
theorem idPrepare_congr (id other : Strval)
    (same : idRemoveLeadingSlashes id = idRemoveLeadingSlashes other) :
    idPrepare id = idPrepare other := by
  rw [idPrepare, idPrepare, same]

/-- The run-time name of a NUL-free id depends on the stripped id only. -/
theorem idRtidPrepare_congr (id other : List UInt8) (nulFree : 0 ∉ id) (nulFreeOther : 0 ∉ other)
    (same : idRemoveLeadingSlashes id = idRemoveLeadingSlashes other) :
    idRtidPrepare id = idRtidPrepare other := by
  rw [idRtidPrepare_parts id nulFree, idRtidPrepare_parts other nulFreeOther, same]

/-- A decimal number has no NUL. -/
theorem decimal_nulFree (n : Nat) : 0 ∉ decimal n := by
  intro member
  exact absurd ((decimal_digits n).2 0 member).1 (by decide)

/-- Replacing slashes in a stripped id brings in no NUL. -/
theorem replaced_nulFree (id : Strval) (nulFree : 0 ∉ id) :
    0 ∉ idReplaceSlashesWithUnderscores (idRemoveLeadingSlashes id) := by
  have stripped := stripped_nulFree id nulFree
  rw [idReplaceSlashesWithUnderscores, Strval.replace_eq_map]
  intro member
  obtain ⟨c, inside, zero⟩ := List.mem_map.mp member
  split at zero
  · exact absurd zero (by decide)
  · exact stripped (zero ▸ inside)

/-- A rendered hash has no NUL. -/
theorem toStrval_nulFree (n : UInt32) : 0 ∉ toStrval n := by
  intro member
  exact absurd (toStrval_digits n 0 member).1 (by decide)

/-- The compile-time name of a NUL-free id has no NUL. -/
theorem idPrepare_nulFree (id : Strval) (nulFree : 0 ∉ id) : 0 ∉ idPrepare id := by
  have constant : 0 ∉ ipcShmemPrefix := by decide
  have replaced := replaced_nulFree id nulFree
  have hashed : 0 ∉ idHash (idRemoveLeadingSlashes id) := toStrval_nulFree _
  simp [idPrepare, constant, replaced, hashed, underscore]

/-- The run-time name of a NUL-free id has no NUL. -/
theorem idRtidPrepare_nulFree (id : List UInt8) (nulFree : 0 ∉ id) : 0 ∉ idRtidPrepare id := by
  have constant : 0 ∉ ipcShmemPrefix := by decide
  have replaced := replaced_nulFree id nulFree
  rw [idRtidPrepare_parts id nulFree]
  simp [constant, replaced, decimal_nulFree, underscore]

/-- Replacing slashes leaves none. -/
theorem replaced_slashFree (id : Strval) : slash ∉ idReplaceSlashesWithUnderscores id := by
  rw [idReplaceSlashesWithUnderscores, Strval.replace_eq_map]
  intro member
  obtain ⟨c, _, replaced⟩ := List.mem_map.mp member
  split at replaced
  · exact absurd replaced (by decide)
  · next other => exact other replaced

/-- Every compile-time name passes the assertion of `shmem_buf`'s constructor that
an id has no slashes. -/
theorem idPrepare_slashFree (id : Strval) : (idPrepare id).occurrences slash = 0 := by
  have hashed : slash ∉ idHash (idRemoveLeadingSlashes id) := by
    intro member
    exact absurd (toStrval_digits _ slash member).1 (by decide)
  have separator : slash ∉ [underscore] := by decide
  rw [Strval.occurrences_eq_count, List.count_eq_zero, idPrepare]
  simp only [List.mem_append, not_or]
  exact ⟨⟨⟨⟨prefix_slashFree, separator⟩, replaced_slashFree _⟩, separator⟩, hashed⟩

/-- A zero hash is rendered as nothing at compile time and as a digit at run time. -/
theorem encoders_differ (id : List UInt8) (nulFree : 0 ∉ id)
    (zero : hashFnv1a32 (idRemoveLeadingSlashes id) (idRemoveLeadingSlashes id).length = 0) :
    idPrepare id ≠ idRtidPrepare id := by
  rw [idRtidPrepare_parts id nulFree, idPrepare, ne_eq, List.append_cancel_left_eq, idHash, zero,
    toStrval_zero]
  exact fun same => (decimal_digits _).1 same.symm

/-- The two encoders give the same name exactly when the hash of the stripped id
is not zero.

Proof: the names share everything before the hash, and a nonzero hash is rendered
alike. -/
theorem encoders_agree_iff (id : List UInt8) (nulFree : 0 ∉ id) :
    idPrepare id = idRtidPrepare id ↔
      hashFnv1a32 (idRemoveLeadingSlashes id) (idRemoveLeadingSlashes id).length ≠ 0 := by
  constructor
  · exact fun same zero => encoders_differ id nulFree zero same
  · intro nonzero
    rw [idRtidPrepare_parts id nulFree, idPrepare, idHash, toStrval_eq_decimal _ nonzero]

/-- The README's topic gets one name from both encoders. -/
theorem encoders_agree_my_topic : idPrepare (chars "/my/topic") = idRtidPrepare (chars "/my/topic") :=
  (encoders_agree_iff (chars "/my/topic") (by decide)).mpr (by decide)

example : hashFnv1a32 (chars "my/topic") 8 = 891174619 := by decide

/-- The hash of `ppkttia` is zero, so its two names differ. -/
theorem encoders_agree_fails : idPrepare (chars "ppkttia") ≠ idRtidPrepare (chars "ppkttia") :=
  encoders_differ (chars "ppkttia") (by decide) (by decide)

end Tyndall.Ipc
