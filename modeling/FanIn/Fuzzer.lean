import FanIn.Random.MersenneTwister
import FanIn.Random.SeedSequence

/-!
# The delay fuzzer

To shake out races, the library passes *points* at which a short sleep may be injected. The
fuzzer decides at each point whether to sleep and for how long: while it is enabled, one point in
`rate` sleeps, for a time drawn between two bounds. All decisions of a thread come from one
generator, seeded from the common seed, the number of the thread and the generation, which is
raised whenever a seed is set.

The fuzzer works with any generator of 64-bit words (`Source`); `Source.twister` is the one used.
-/

namespace FanIn

namespace Random

/-- A kind of generator of 64-bit words. -/
structure Source (σ : Type) where
  blank : σ
  /-- A generator seeded with a list of words. -/
  seeded : Array UInt32 → σ
  next : σ → UInt64 × σ

/-- The Mersenne twister, seeded through a seed sequence. -/
def Source.twister : Source MersenneTwister where
  blank := default
  seeded seeds := MersenneTwister.ofHalves (SeedSequence.generate seeds (2 * stateSize))
  next := MersenneTwister.next

end Random

namespace Fuzzer

/-- What all threads share: the controls, and the count of the sleeps injected so far. -/
structure Controls where
  enabled : Bool := false
  seed : UInt64 := 0
  generation : UInt64 := 1
  minDelay : UInt32 := 0
  maxDelay : UInt32 := 50
  rate : UInt32 := 1
  threads : UInt64 := 0
  injections : UInt64 := 0
  deriving DecidableEq, Repr, Inhabited

/-- What each thread has of its own. -/
structure Thread (σ : Type) where
  generator : σ
  generation : UInt64 := 0
  number : Option UInt64 := none
  deriving Repr

namespace Controls

def enable (c : Controls) (on : Bool) : Controls := { c with enabled := on }

/-- A new seed starts a new generation. -/
def setSeed (c : Controls) (seed : UInt64) : Controls :=
  { c with seed := seed, generation := c.generation + 1 }

/-- Bounds in the wrong order collapse to the lower one given. -/
def setBounds (c : Controls) (least most : UInt32) : Controls :=
  { c with minDelay := least, maxDelay := if most < least then least else most }

/-- A rate of zero means that every point sleeps. -/
def setRate (c : Controls) (rate : UInt32) : Controls :=
  { c with rate := if rate = 0 then 1 else rate }

/-- What a scope does on entry: it sets the seed and the bounds and enables the fuzzer. -/
def enter (c : Controls) (seed : UInt64) (least most : UInt32) : Controls :=
  ((c.setSeed seed).setBounds least most).enable true

end Controls

/-- A delay from a drawn word, for bounds that may have been read in the middle of a change. -/
def delay (least most : UInt32) (draw : UInt64) : UInt32 :=
  let span := if least ≤ most then most - least else 0
  least + (draw % (span.toUInt64 + 1)).toUInt32

variable {σ : Type}

/-- The words a thread seeds its generator with. -/
def seeds (c : Controls) (number : UInt64) : Array UInt32 :=
  #[c.seed.toUInt32, (c.seed >>> 32).toUInt32, number.toUInt32, c.generation.toUInt32]

/-- Brings a thread up to the present generation: it is numbered, the first time, and seeded. -/
def refresh (src : Random.Source σ) (c : Controls) (t : Thread σ) : Controls × Thread σ :=
  if t.generation = c.generation then (c, t)
  else
    let number := t.number.getD c.threads
    let c := if t.number.isNone then { c with threads := c.threads + 1 } else c
    (c, { generator := src.seeded (seeds c number), generation := c.generation,
          number := some number })

/-- Whether a point is chosen: always at rate one, and otherwise if the rate divides a drawn
word. -/
def choose (src : Random.Source σ) (rate : UInt32) (g : σ) : Bool × σ :=
  if rate ≤ 1 then (true, g)
  else
    let (draw, g) := src.next g
    (draw % rate.toUInt64 == 0, g)

/-- The delay of a chosen point; nothing is drawn where the bounds leave no choice. -/
def pickDelay (src : Random.Source σ) (least most : UInt32) (g : σ) : UInt32 × σ :=
  if least < most then
    let (draw, g) := src.next g
    (delay least most draw, g)
  else (least, g)

/-- A point passed by a thread: the delay injected there, if one is. -/
def point (src : Random.Source σ) (c : Controls) (t : Thread σ) :
    Option UInt32 × Controls × Thread σ :=
  if !c.enabled then (none, c, t)
  else
    let (c, t) := refresh src c t
    match choose src c.rate t.generator with
    | (false, g) => (none, c, { t with generator := g })
    | (true, g) =>
      let (d, g) := pickDelay src c.minDelay c.maxDelay g
      (some d, { c with injections := c.injections + 1 }, { t with generator := g })

/-- Several points in a row: for each, whether a delay was injected, after what `before` tells of
earlier ones, and the state after all. -/
def points (src : Random.Source σ) (n : Nat) (c : Controls) (t : Thread σ)
    (before : Array Bool := #[]) : Array Bool × Controls × Thread σ :=
  match n with
  | 0 => (before, c, t)
  | n + 1 =>
    let (d, c, t) := point src c t
    points src n c t (before.push d.isSome)

end Fuzzer

end FanIn
