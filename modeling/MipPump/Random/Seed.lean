import MipPump.Number.Power

/-!
# Seeding

A seed of any size is spread over a pool of four 32-bit words, and the pool is stretched to the
four 64-bit words that a generator starts from.  All arithmetic wraps at 32 bits.

* `entropy` lists the words of a seed, the least significant first;
* `pool` mixes them: every word reaches every other one;
* `startWords` reads the pool twice over with a second family of multipliers.
-/

namespace MipPump
namespace Random

section Mixing

/-- Folds the upper half of a word into the lower half. -/
def foldHalf (x : UInt32) : UInt32 := x ^^^ (x >>> 16)

/-- A word hashed under a running constant, and the next constant of the family `factor`. -/
def hashWord (factor constant x : UInt32) : UInt32 × UInt32 :=
  let next := constant * factor
  (foldHalf ((x ^^^ constant) * next), next)

/-- Mixes a hashed word into a word of the pool. -/
def mixWords (x y : UInt32) : UInt32 :=
  foldHalf (0xca01f9dd * x - 0x4973f715 * y)

end Mixing

section Pool

/-- A pool of words together with the running constant of its hash. -/
structure Pool where
  words : List UInt32
  constant : UInt32

/-- Multiplier of the constants that fill the pool. -/
def fillFactor : UInt32 := 0x931e8875

/-- Multiplier of the constants that read the pool. -/
def readFactor : UInt32 := 0x58f38ded

/-- The words of a natural number, the least significant first. -/
def wordsOf : (fuel n : Nat) → List UInt32
  | 0, _ => []
  | fuel + 1, n => if n = 0 then [] else UInt32.ofNat n :: wordsOf fuel (n / Power.two 32)

/-- The words of a seed; zero has one word. -/
def entropy (seed : Nat) : List UInt32 :=
  if seed = 0 then [0] else wordsOf (seed.log2 / 32 + 1) seed

/-- Hashes a list of words in order. -/
def hashAll : UInt32 → List UInt32 → List UInt32 × UInt32
  | c, [] => ([], c)
  | c, x :: xs =>
      let (y, c) := hashWord fillFactor c x
      let (ys, c) := hashAll c xs
      (y :: ys, c)

/-- Mixes a hash of the word `x` into the word at position `target`. -/
def Pool.absorb (p : Pool) (x : UInt32) (target : Nat) : Pool :=
  let (h, c) := hashWord fillFactor p.constant x
  { words := p.words.modify target fun w => mixWords w h, constant := c }

/-- Mixes the word at `source` into each of the others. -/
def Pool.spread (p : Pool) (source : Nat) : Pool :=
  ((List.range 4).filter (· != source)).foldl
    (fun p target => p.absorb (p.words.getD source 0) target) p

/-- Mixes a word from outside into every word of the pool. -/
def Pool.absorbAll (p : Pool) (x : UInt32) : Pool :=
  (List.range 4).foldl (fun p target => p.absorb x target) p

/-- The pool of a seed. -/
def pool (seed : Nat) : Pool :=
  let words := entropy seed
  let first := (words ++ List.replicate 4 0).take 4
  let (hashed, c) := hashAll 0x43b0d7e5 first
  let mixed := (List.range 4).foldl Pool.spread { words := hashed, constant := c }
  (words.drop 4).foldl Pool.absorbAll mixed

/-- Reads words of the pool, each hashed under the next constant. -/
def readWords : UInt32 → List UInt32 → List UInt32
  | _, [] => []
  | c, x :: xs =>
      let (y, c) := hashWord readFactor c x
      y :: readWords c xs

/-- Joins words in pairs, the less significant first. -/
def joinPairs : List UInt32 → List UInt64
  | low :: high :: rest => (low.toUInt64 ||| (high.toUInt64 <<< 32)) :: joinPairs rest
  | _ => []

/-- The four words a generator starts from. -/
def startWords (seed : Nat) : List UInt64 :=
  let p := pool seed
  joinPairs (readWords 0x8b51f9dd (p.words ++ p.words))

end Pool

end Random
end MipPump
