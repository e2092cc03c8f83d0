/-!
# The last entries of a sequence

A window keeps the last entries that were pushed, up to a capacity; an older entry is dropped when a
newer one needs its place.  The entries are listed from the oldest to the newest.
-/

namespace MipPump

/-- The last entries of a sequence. -/
structure Recent (α : Type) where
  capacity : Nat
  /-- From the oldest to the newest. -/
  entries : List α := []

namespace Recent

variable {α : Type}

/-- Adds an entry and drops the oldest ones beyond the capacity. -/
def push (r : Recent α) (a : α) : Recent α :=
  let entries := r.entries ++ [a]
  { r with entries := entries.drop (entries.length - r.capacity) }

/-- Drops all entries. -/
def clear (r : Recent α) : Recent α := { r with entries := [] }

/-- Number of entries. -/
def size (r : Recent α) : Nat := r.entries.length

/-- Nothing is left after clearing. -/
@[simp] theorem entries_clear (r : Recent α) : r.clear.entries = [] := rfl

/-- Clearing keeps the capacity. -/
@[simp] theorem capacity_clear (r : Recent α) : r.clear.capacity = r.capacity := rfl

/-- Pushing keeps the capacity. -/
@[simp] theorem capacity_push (r : Recent α) (a : α) : (r.push a).capacity = r.capacity := rfl

end Recent

end MipPump
