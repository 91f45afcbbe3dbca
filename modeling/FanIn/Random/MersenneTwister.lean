/-!
# The 64-bit Mersenne twister

A generator of 64-bit words with a state of 312 words. `twist` replaces the whole state, `temper`
turns a word of it into an output, and `next` hands out the words of the state one by one.
-/

namespace FanIn.Random

def stateSize : Nat := 312

/-- The distance at which words are combined. -/
def middle : Nat := 156

/-- The upper 33 bits of a word. -/
def upperMask : UInt64 := 0xffffffff80000000

/-- The lower 31 bits of a word. -/
def lowerMask : UInt64 := 0x7fffffff

def matrix : UInt64 := 0xb5026f5aa96619e9

/-- The state of a generator: its words and how many of them were handed out. -/
structure MersenneTwister where
  words : Array UInt64
  used : Nat := stateSize
  deriving Repr, Inhabited

namespace MersenneTwister

/-- The `i`-th word of a state, counted around its end. -/
def word (a : Array UInt64) (i : Nat) : UInt64 := a.getD (i % stateSize) 0

/-- The recurrence for word `i`: the upper bits of it and the lower ones of the next, shifted and
multiplied, on top of the word half a state further on. -/
def recur (a : Array UInt64) (i : Nat) : UInt64 :=
  let y := (word a i &&& upperMask) ||| (word a (i + 1) &&& lowerMask)
  word a (i + middle) ^^^ (y >>> 1) ^^^ (if y &&& 1 = 1 then matrix else 0)

/-- Replaces the words one after the other; later ones see the earlier ones already replaced. -/
def twist (a : Array UInt64) : Array UInt64 :=
  (List.range stateSize).foldl (fun a i => a.setIfInBounds i (recur a i)) a

/-- Turns a word of the state into an output. -/
def temper (x : UInt64) : UInt64 :=
  let x := x ^^^ ((x >>> 29) &&& 0x5555555555555555)
  let x := x ^^^ ((x <<< 17) &&& 0x71d67fffeda60000)
  let x := x ^^^ ((x <<< 37) &&& 0xfff7eee000000000)
  x ^^^ (x >>> 43)

/-- The next word and the generator after it. -/
def next (g : MersenneTwister) : UInt64 × MersenneTwister :=
  let g := if g.used < stateSize then g else { words := twist g.words, used := 0 }
  (temper (g.words.getD g.used 0), { g with used := g.used + 1 })

/-- A generator from 624 words of 32 bits, two for each word of its state, the lower half first.
A state that would never leave zero is given one bit. -/
def ofHalves (halves : Array UInt32) : MersenneTwister :=
  let words := Array.ofFn fun i : Fin stateSize =>
    (halves.getD (2 * i.val) 0).toUInt64 ||| ((halves.getD (2 * i.val + 1) 0).toUInt64 <<< 32)
  let stuck := (words.getD 0 0 &&& upperMask) == 0 && (words.toList.drop 1).all (· == 0)
  { words := if stuck then words.setIfInBounds 0 0x8000000000000000 else words }

end MersenneTwister

end FanIn.Random
