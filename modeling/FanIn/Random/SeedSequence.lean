/-!
# Seed sequences

A short list of seeds is spread over as many 32-bit words as a generator needs. Every word of the
result depends on every seed: the result is filled with a constant and mixed twice, first adding
the seeds in, then subtracting the positions out.
-/

namespace FanIn.Random

/-- The mixing step on one word: its upper bits folded into the lower ones. -/
def fold (x : UInt32) : UInt32 := x ^^^ (x >>> 27)

namespace SeedSequence

/-- The distance between the two words that a step updates. -/
def gap (n : Nat) : Nat :=
  if 623 ≤ n then 11
  else if 68 ≤ n then 7
  else if 39 ≤ n then 5
  else if 7 ≤ n then 3
  else (n - 1) / 2

/-- The words that step `k` combines, and the two that it updates. -/
def positions (n k : Nat) : Nat × Nat × Nat × Nat :=
  let p := (n - gap n) / 2
  (k % n, (k + p) % n, (k + n - 1) % n, (k + p + gap n) % n)

/-- A step of the first round: what it adds is the number of seeds, then each seed with its
position, then the position alone. -/
def blend (seeds : Array UInt32) (a : Array UInt32) (k : Nat) : Array UInt32 :=
  let n := a.size
  let (i, ip, before, iq) := positions n k
  let r1 := 1664525 * fold (a.getD i 0 ^^^ a.getD ip 0 ^^^ a.getD before 0)
  let r2 := r1 + (if k = 0 then UInt32.ofNat seeds.size
    else if k ≤ seeds.size then UInt32.ofNat i + seeds.getD (k - 1) 0
    else UInt32.ofNat i)
  let a := a.setIfInBounds ip (a.getD ip 0 + r1)
  let a := a.setIfInBounds iq (a.getD iq 0 + r2)
  a.setIfInBounds i r2

def settle (a : Array UInt32) (k : Nat) : Array UInt32 :=
  let n := a.size
  let (i, ip, before, iq) := positions n k
  let r3 := 1566083941 * fold (a.getD i 0 + a.getD ip 0 + a.getD before 0)
  let r4 := r3 - UInt32.ofNat i
  let a := a.setIfInBounds ip (a.getD ip 0 ^^^ r3)
  let a := a.setIfInBounds iq (a.getD iq 0 ^^^ r4)
  a.setIfInBounds i r4

/-- The seeds spread over `n` words. -/
def generate (seeds : Array UInt32) (n : Nat) : Array UInt32 :=
  let m := max (seeds.size + 1) n
  let start : Array UInt32 := Array.replicate n 0x8b8b8b8b
  let mixed := (List.range m).foldl (blend seeds) start
  (List.range' m n).foldl settle mixed

end SeedSequence

end FanIn.Random
