import MipPump.Fault

/-!
# Vectors

Vectors are lists.  This module holds what the algorithms do to whole vectors:

* `at?`, `setAt?`, `pick`, `place`: reading and writing at integer indices, where a negative index
  counts from the end;
* `map2`: entry by entry combination of vectors of one length, where a single entry is repeated
  as often as needed;
* `plainSum` and `pairedSum`: the two orders of summation in use;
* `dot`: the inner product.
-/

namespace MipPump
namespace Vec

section Indices

variable {R α : Type}

/-- Position that an index addresses in a list of the given length. -/
def position? (length : Nat) (i : Int) : Option Nat :=
  if 0 ≤ i then
    if i < length then some i.toNat else none
  else if -(length : Int) ≤ i then some (i + length).toNat else none

/-- An addressed position lies in the list. -/
theorem position?_lt {n p : Nat} {i : Int} (h : position? n i = some p) : p < n := by
  unfold position? at h
  split at h
  · split at h
    · cases h
      omega
    · cases h
  · split at h
    · cases h
      omega
    · cases h

/-- A natural number in the list addresses itself. -/
theorem position?_natCast {n k : Nat} (h : k < n) : position? n (k : Int) = some k := by
  have hn : (k : Int) < n := by omega
  simp [position?, hn]

/-- The entry at an index. -/
def at? (xs : List α) (i : Int) : Option α := (position? xs.length i).bind (xs[·]?)

/-- The entry at an index, or a fault. -/
def get (xs : List α) (i : Int) : Except (Fault R) α :=
  match at? xs i with
  | some x => .ok x
  | none => .error .noSuchEntry

/-- Replaces the entry at an index. -/
def setAt? (xs : List α) (i : Int) (x : α) : Option (List α) :=
  (position? xs.length i).map fun p => xs.set p x

/-- Replaces the entry at an index, or stops with a fault. -/
def set (xs : List α) (i : Int) (x : α) : Except (Fault R) (List α) :=
  match setAt? xs i x with
  | some ys => .ok ys
  | none => .error .noSuchEntry

/-- Replacing an entry keeps the length. -/
theorem length_of_setAt? {xs ys : List α} {i : Int} {x : α} (h : setAt? xs i x = some ys) :
    ys.length = xs.length := by
  unfold setAt? at h
  obtain ⟨p, -, rfl⟩ := Option.map_eq_some_iff.mp h
  simp

/-- A replaced entry is read back. -/
theorem at?_of_setAt? {xs ys : List α} {i : Int} {x : α} (h : setAt? xs i x = some ys) :
    at? ys i = some x := by
  have hlen := length_of_setAt? h
  unfold setAt? at h
  obtain ⟨p, hp, rfl⟩ := Option.map_eq_some_iff.mp h
  have hlt := position?_lt hp
  simp [at?, hp, hlt]

/-- The entries at a list of indices, in their order. -/
def pick (xs : List α) (indices : List Int) : Except (Fault R) (List α) :=
  indices.mapM (get xs)

/-- The entries that a list of answers selects; both lists have one length. -/
def select (mask : List Bool) (xs : List α) : Except (Fault R) (List α) :=
  if mask.length = xs.length then .ok (((mask.zip xs).filter (·.1)).map (·.2))
  else .error .noSuchEntry

/-- Writes values at their indices in order; the last write wins. -/
def placeAll (xs : List α) : List (Int × α) → Except (Fault R) (List α)
  | [] => .ok xs
  | (i, x) :: rest =>
      match setAt? xs i x with
      | some ys => placeAll ys rest
      | none => .error .noSuchEntry

end Indices

section Stretching

variable {R α β γ : Type}

/-- The length of a combination: the common one, or that of the other side if one side is a
single entry. -/
def jointLength? (m n : Nat) : Option Nat :=
  if m = n then some n else if m = 1 then some n else if n = 1 then some m else none

/-- Repeats a single entry to a length; other lists stay as they are. -/
def stretch (n : Nat) : List α → List α
  | [x] => List.replicate n x
  | xs => xs

/-- Combines two vectors entry by entry. -/
def map2 (f : α → β → γ) (xs : List α) (ys : List β) : Except (Fault R) (List γ) :=
  match jointLength? xs.length ys.length with
  | some n => .ok (List.zipWith f (stretch n xs) (stretch n ys))
  | none => .error .lengthsDiffer

/-- Writes values at a list of indices; a single value is written everywhere. -/
def place (xs : List α) (indices : List Int) (values : List α) : Except (Fault R) (List α) :=
  if values.length = indices.length || values.length = 1 then
    placeAll xs (indices.zip (stretch indices.length values))
  else .error .lengthsDiffer

end Stretching

section Sums

variable {R : Type} [Arith R]

/-- Sum from the left, starting at zero. -/
def plainSum (xs : List R) : R := xs.foldl (· + ·) 0

/-- Adds blocks of eight entries to eight partial sums; answers with the entries left over. -/
def addBlocks : List R → List R → List R × List R
  | sums, a :: b :: c :: d :: e :: f :: g :: h :: rest =>
      addBlocks (List.zipWith (· + ·) sums [a, b, c, d, e, f, g, h]) rest
  | sums, rest => (sums, rest)

/-- The eight partial sums combined in pairs. -/
def combinePairs : List R → R
  | [a, b, c, d, e, f, g, h] => ((a + b) + (c + d)) + ((e + f) + (g + h))
  | xs => plainSum xs

/-- Sum of at most 128 entries: from the left if there are fewer than eight, otherwise by eight
partial sums. -/
def blockSum (xs : List R) : R :=
  if xs.length < 8 then plainSum xs
  else
    let (sums, rest) := addBlocks (xs.take 8) (xs.drop 8)
    rest.foldl (· + ·) (combinePairs sums)

/-- Sum that halves a vector of more than 128 entries, at a multiple of eight. -/
def halvedSum : (fuel : Nat) → List R → R
  | 0, xs => blockSum xs
  | fuel + 1, xs =>
      if xs.length ≤ 128 then blockSum xs
      else
        let half := xs.length / 2
        let cut := half - half % 8
        halvedSum fuel (xs.take cut) + halvedSum fuel (xs.drop cut)

/-- Sum of a vector in paired order. -/
def pairedSum (xs : List R) : R := halvedSum xs.length xs

/-- Inner product of two vectors of one length. -/
def dot (xs ys : List R) : Except (Fault R) R :=
  if xs.length = ys.length then .ok (plainSum (List.zipWith (· * ·) xs ys))
  else .error .lengthsDiffer

/-- Euclidean norm. -/
def norm (xs : List R) : R := Arith.sqrt (plainSum (xs.map fun x => x * x))

/-- A vector of zeros. -/
def zeros (n : Nat) : List R := List.replicate n 0

/-- Greatest entry, at least `start`. -/
def greatest (start : R) (xs : List R) : R := xs.foldl Arith.larger start

end Sums

end Vec
end MipPump
