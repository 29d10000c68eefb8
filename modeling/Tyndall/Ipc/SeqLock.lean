import Mathlib.Data.Fin.VecNotation
import Mathlib.Data.List.Induction
import Tyndall.Foundation.Counter

/-!
# The sequence lock

`seq_lock` protects one entry with a 32-bit sequence number that a writer makes
odd while it stores and even again when it is done. This module holds the code's
own functions: the four helpers on the sequence number, and `write` and `read` as
they act when nothing else touches the memory. The atomic steps of the same
functions, and every interleaving of them, are in `Tyndall.Ipc.SeqLockSteps`.

An entry is a block of words. The word type and the width stay arbitrary.
-/

namespace Tyndall.SeqLock

open Counter

variable {W : Type} {width : Nat}

/-- The storage an entry occupies, word by word. -/
abbrev Entry (W : Type) (width : Nat) := Fin width → W

/-- `seq_lock`: the sequence number and the entry it protects. The padding
between them holds no data. -/
structure Shared (W : Type) (width : Nat) where
  seq : UInt32
  entry : Entry W width

/-- `seq_lock_state`: what one reader remembers between its reads. -/
structure State where
  prevSeq : UInt32 := 0
  hasReadOnce : Bool := false
deriving DecidableEq, Repr

/-- Outcome of a read: 0, or -1 with `errno` set to `ENOMSG` or to `EAGAIN`. -/
inductive Code where
  | success
  | enomsg
  | eagain
deriving DecidableEq, Repr

/-- Fresh shared memory is zero everywhere. -/
def created [Zero W] : Shared W width := { seq := 0, entry := fun _ => 0 }

/-- `seq_lock_write_begin` stores the successor of `*seq` and returns it. -/
def seqLockWriteBegin (seq : UInt32) : UInt32 := seq + 1

/-- `seq_lock_write_end` stores the successor of what `write_begin` returned. -/
def seqLockWriteEnd (seq1 : UInt32) : UInt32 := seq1 + 1

/-- One load of the loop in `seq_lock_read_begin`. An odd value spins. -/
def seqLockReadBegin (seq : UInt32) : Option UInt32 :=
  if seq &&& 1 ≠ 0 then none else some seq

/-- `seq_lock_read_retry` compares the reloaded value with the one read first. -/
def seqLockReadRetry (seq2 seq1 : UInt32) : Bool := seq2 != seq1

/-- The end of `read`, after its loop: compare with the previous sequence number
and choose the return code. -/
def conclude (seq1 : UInt32) (state : State) : Code × State :=
  if seq1 ≠ state.prevSeq then
    (.success,
      { prevSeq := seq1,
        hasReadOnce := if !state.hasReadOnce then true else state.hasReadOnce })
  else if seq1 = 0 && !state.hasReadOnce then (.enomsg, state)
  else (.eagain, state)

/-- `write` on memory that nothing else touches. -/
def write (lock : Shared W width) (entry : Entry W width) : Shared W width :=
  let seq := seqLockWriteBegin lock.seq
  { seq := seqLockWriteEnd seq, entry := entry }

/-- `read` on memory that nothing else touches. An odd sequence number never
changes there, so the loop in `read_begin` does not end and nothing is returned. -/
def read (lock : Shared W width) (state : State) : Option (Code × Entry W width × State) := do
  let seq1 ← seqLockReadBegin lock.seq
  if seqLockReadRetry lock.seq seq1 then none
  else
    let (rc, state') := conclude seq1 state
    pure (rc, lock.entry, state')

/-- An unchanged sequence number leaves the reader's state alone. -/
@[simp] theorem conclude_same (state : State) : (conclude state.prevSeq state).2 = state := by
  cases state with
  | mk prevSeq hasReadOnce =>
    simp only [conclude, ne_eq, not_true_eq_false, ↓reduceIte]
    split <;> rfl

/-- After any read the remembered sequence number is the one just read. -/
@[simp] theorem conclude_prev (seq1 : UInt32) (state : State) :
    (conclude seq1 state).2.prevSeq = seq1 := by
  by_cases same : seq1 = state.prevSeq
  · rw [same, conclude_same]
  · simp [conclude, same]

/-- A read succeeds exactly when the sequence number moved. -/
theorem conclude_success_iff (seq1 : UInt32) (state : State) :
    (conclude seq1 state).1 = .success ↔ seq1 ≠ state.prevSeq := by
  unfold conclude
  split
  · simp_all
  · split <;> simp_all

/-- `ENOMSG` needs an unmoved number, which is zero, and no earlier success. -/
theorem conclude_enomsg_iff (seq1 : UInt32) (state : State) :
    (conclude seq1 state).1 = .enomsg ↔
      seq1 = state.prevSeq ∧ seq1 = 0 ∧ state.hasReadOnce = false := by
  unfold conclude
  split
  · simp_all
  · split <;> simp_all

/-- `EAGAIN` is every other unmoved number. -/
theorem conclude_eagain_iff (seq1 : UInt32) (state : State) :
    (conclude seq1 state).1 = .eagain ↔
      seq1 = state.prevSeq ∧ (seq1 ≠ 0 ∨ state.hasReadOnce = true) := by
  unfold conclude
  split
  · simp_all
  · split
    · simp_all
    · simp_all [Decidable.imp_iff_not_or]

/-- A reader has received a message once a read of it succeeded. -/
theorem conclude_received (seq1 : UInt32) (state : State) :
    (conclude seq1 state).2.hasReadOnce =
      (state.hasReadOnce || decide ((conclude seq1 state).1 = .success)) := by
  unfold conclude
  split
  · cases state.hasReadOnce <;> simp
  · split <;> simp

/-- A reader that has received nothing remembers a zero. -/
theorem conclude_fresh (seq1 : UInt32) (state : State)
    (fresh : state.hasReadOnce = false → state.prevSeq = 0) :
    (conclude seq1 state).2.hasReadOnce = false → (conclude seq1 state).2.prevSeq = 0 := by
  unfold conclude
  split
  · cases state.hasReadOnce <;> simp
  · split <;> exact fresh

/-- Two readers of one number return alike if and only if it is news to both or to
neither, and where it is a zero that is news to neither, both or neither have
received something. -/
theorem conclude_agree_iff (seq1 : UInt32) (state other : State) :
    (conclude seq1 state).1 = (conclude seq1 other).1 ↔
      (seq1 = state.prevSeq ↔ seq1 = other.prevSeq) ∧
      (seq1 = state.prevSeq → seq1 = other.prevSeq → seq1 = 0 →
        state.hasReadOnce = other.hasReadOnce) := by
  have news := conclude_success_iff seq1 state
  have newsOther := conclude_success_iff seq1 other
  by_cases old : seq1 = state.prevSeq
  · have fails : (conclude seq1 state).1 ≠ .success := mt news.mp (not_not.mpr old)
    by_cases oldOther : seq1 = other.prevSeq
    · have code : ∀ each : State, seq1 = each.prevSeq →
          (conclude seq1 each).1 = if seq1 = 0 ∧ each.hasReadOnce = false then .enomsg else .eagain := by
        intro each unmoved
        simp only [conclude, ne_eq, unmoved, not_true_eq_false, ↓reduceIte]
        by_cases zero : each.prevSeq = 0 <;> cases each.hasReadOnce <;> simp [zero]
      rw [code state old, code other oldOther]
      by_cases zero : seq1 = 0
      · cases first : state.hasReadOnce <;> cases second : other.hasReadOnce <;>
          simp [zero, ← old, ← oldOther]
      · simp [zero, ← old, ← oldOther]
    · rw [newsOther.mpr oldOther]
      simp only [fails, false_iff]
      exact fun same => oldOther (same.1.mp old)
  · by_cases oldOther : seq1 = other.prevSeq
    · have fails : (conclude seq1 other).1 ≠ .success := mt newsOther.mp (not_not.mpr oldOther)
      rw [news.mpr old]
      simp only [fails.symm, false_iff]
      exact fun same => old (same.1.mpr oldOther)
    · simp [news.mpr old, newsOther.mpr oldOther, old, oldOther]

/-- On an even sequence number the sequential read returns the whole entry. -/
theorem read_even (lock : Shared W width) (state : State) (even : lock.seq &&& 1 = 0) :
    read lock state =
      some ((conclude lock.seq state).1, lock.entry, (conclude lock.seq state).2) := by
  simp [read, seqLockReadBegin, seqLockReadRetry, even]

/-- The entry in place after the first `n` writes: the zeroed memory or the
entry of the `n`th write. -/
def entryAfter [Zero W] (writes : List (Entry W width)) : Nat → Entry W width
  | 0 => fun _ => 0
  | n + 1 => writes.getD n (fun _ => 0)

/-- A later write does not change what was in place before it. -/
theorem entryAfter_snoc [Zero W] (writes : List (Entry W width)) (entry : Entry W width) (n : Nat)
    (earlier : n ≤ writes.length) : entryAfter (writes ++ [entry]) n = entryAfter writes n := by
  cases n with
  | zero => rfl
  | succ n =>
    have inside : n < writes.length := earlier
    simp [entryAfter, List.getD, List.getElem?_append_left inside]

/-- After all writes the last one is in place. -/
@[simp] theorem entryAfter_last [Zero W] (writes : List (Entry W width)) (entry : Entry W width) :
    entryAfter (writes ++ [entry]) (writes.length + 1) = entry := by
  simp [entryAfter]

/-- A topic's memory after a sequence of writes, none of them interrupted. -/
def written [Zero W] (entries : List (Entry W width)) : Shared W width :=
  entries.foldl write created

@[simp] theorem written_nil [Zero W] : written ([] : List (Entry W width)) = created := rfl

@[simp] theorem written_snoc [Zero W] (entries : List (Entry W width)) (entry : Entry W width) :
    written (entries ++ [entry]) = write (written entries) entry := by
  simp [written]

/-- The number counts the writes and the entry is the last one. -/
theorem written_state [Zero W] (entries : List (Entry W width)) :
    (written entries).seq = doubled entries.length ∧
      (written entries).entry = entryAfter entries entries.length := by
  induction entries using List.reverseRecOn with
  | nil => exact ⟨rfl, rfl⟩
  | append_singleton entries entry inductionHypothesis =>
    rw [written_snoc]
    constructor
    · simp [write, seqLockWriteBegin, seqLockWriteEnd, inductionHypothesis.1]
    · simp [write]

/-- A fresh reader of a topic with completed writes. Its read returns the newest
entry, and reports `ENOMSG` exactly when the number has wrapped to zero. -/
theorem read_fresh [Zero W] (entries : List (Entry W width)) :
    read (written entries) {} =
      if entries.length % 2 ^ 31 = 0 then
        some (.enomsg, entryAfter entries entries.length, {})
      else
        some (.success, entryAfter entries entries.length,
          { prevSeq := doubled entries.length, hasReadOnce := true }) := by
  obtain ⟨seq, entry⟩ := written_state entries
  rw [read_even _ _ (by rw [seq]; exact doubled_low_bit _), seq, entry]
  have zero := doubled_eq_zero_iff entries.length
  split
  · next wrapped => simp [conclude, zero.mpr wrapped]
  · next moved => simp [conclude, mt zero.mp moved]

/-- A number of writes that wraps the sequence number hides them from a fresh reader. -/
theorem read_fresh_wrapped [Zero W] (entries : List (Entry W width))
    (wrapped : entries.length % 2 ^ 31 = 0) :
    (read (written entries) {}).map Prod.fst = some .enomsg := by
  rw [read_fresh, if_pos wrapped]
  rfl

/-- A late joiner. After any positive number of completed writes the first read
of a reader that attaches then returns 0 with the last entry if and only if that
number is not a multiple of `2 ^ 31`. -/
theorem late_joiner [Zero W] (entries : List (Entry W width)) (some_written : entries ≠ []) :
    (∃ state, read (written entries) {} = some (.success, entries.getLast some_written, state)) ↔
      entries.length % 2 ^ 31 ≠ 0 := by
  have newest : entryAfter entries entries.length = entries.getLast some_written := by
    obtain ⟨earlier, last, rfl⟩ := List.eq_nil_or_concat entries |>.resolve_left some_written
    simp
  rw [read_fresh, newest]
  by_cases wrapped : entries.length % 2 ^ 31 = 0
  · rw [if_pos wrapped]
    constructor
    · rintro ⟨state, returned⟩
      cases returned
    · exact fun moved => absurd wrapped moved
  · rw [if_neg wrapped]
    exact ⟨fun _ => wrapped, fun _ => ⟨_, rfl⟩⟩

/-- Three writes are delivered to a late joiner. -/
theorem late_joiner_three : ∃ state,
    read (written [![1, 2], ![3, 4], ![5, 6]]) {} = some (.success, ![5, 6], state) :=
  (late_joiner [![1, 2], ![3, 4], (![5, 6] : Entry Nat 2)] (by simp)).mpr (by decide)

/-- After `2 ^ 31` writes a late joiner is told that there is no message. -/
theorem late_joiner_fails :
    (read (written (List.replicate (2 ^ 31) (![7] : Entry Nat 1))) {}).map Prod.fst =
      some .enomsg :=
  read_fresh_wrapped _ ((congrArg (· % 2 ^ 31) List.length_replicate).trans (Nat.mod_self _))

end Tyndall.SeqLock
