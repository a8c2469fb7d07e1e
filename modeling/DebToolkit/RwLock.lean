import Mathlib.Data.Finset.Basic
import Mathlib.Tactic.Common

/-!
# Read-write locks

A lock is held by one writer or by any number of readers. A holder is named by the guard that it got;
`write` and `read` give the lock after the acquisition, `none` when the caller has to wait.
-/

/-- Who holds the lock. -/
structure RwLock (κ : Type*) where
  writer : Option κ
  readers : Finset κ
  exclusive : ∀ k ∈ writer, readers = ∅
  deriving DecidableEq

namespace RwLock

variable {κ : Type*}

def free : RwLock κ := ⟨none, ∅, fun _ _ => rfl⟩

variable {lock lock' : RwLock κ} {k : κ}

/-- While someone writes, no one reads. -/
theorem notMem_readers (h : lock.writer = some k) (k' : κ) : k' ∉ lock.readers := by
  rw [lock.exclusive k h]
  exact Finset.notMem_empty k'

variable [DecidableEq κ]

def write (lock : RwLock κ) (k : κ) : Option (RwLock κ) :=
  if lock.writer = none ∧ lock.readers = ∅ then some ⟨some k, ∅, fun _ _ => rfl⟩ else none

def read (lock : RwLock κ) (k : κ) : Option (RwLock κ) :=
  if lock.writer = none ∧ k ∉ lock.readers then
    some ⟨none, insert k lock.readers, fun _ h => by cases h⟩
  else none

def unlockWrite (lock : RwLock κ) : RwLock κ := ⟨none, lock.readers, fun _ h => by cases h⟩

def unlockRead (lock : RwLock κ) (k : κ) : RwLock κ :=
  ⟨lock.writer, lock.readers.erase k, fun k' h => by rw [lock.exclusive k' h, Finset.erase_empty]⟩

theorem write_eq_some (h : lock.write k = some lock') :
    lock.writer = none ∧ lock.readers = ∅ ∧ lock'.writer = some k ∧ lock'.readers = ∅ := by
  unfold write at h
  split_ifs at h with hfree
  obtain rfl := Option.some.inj h
  exact ⟨hfree.1, hfree.2, rfl, rfl⟩

theorem read_eq_some (h : lock.read k = some lock') :
    lock.writer = none ∧ lock'.writer = none ∧ lock'.readers = insert k lock.readers := by
  unfold read at h
  split_ifs at h with hfree
  obtain rfl := Option.some.inj h
  exact ⟨hfree.1, rfl, rfl⟩

end RwLock
