/-!
# Channels

A channel is a broadcast that happens once. It is either *waiting*, with the observers registered
so far, or *fired*, with the value that was broadcast. Firing hands the value to every registered
observer; whoever subscribes afterwards receives the same value at once.

Registered observers are numbered from one in the order of their subscriptions, in 64 bits, so that
the numbers of a channel come round after `2 ^ 64` of them. The number is what unsubscribing goes
by. Until they come round it is used once, and unsubscribing a second time finds nothing to remove;
nor does it after the channel has fired.

The operations here only say what has to be delivered to whom. Calling the observers, who may in
turn use the channel, is the business of whoever runs it.
-/

namespace FanIn

/-- A channel for values of type `α` with observers of type `ω`. -/
inductive Channel (α ω : Type) where
  /-- Not fired yet: the number of the next observer, and the numbered observers in order. -/
  | waiting (next : UInt64) (observers : List (UInt64 × ω))
  /-- Fired, with the broadcast value. -/
  | fired (value : α)
  deriving Repr

namespace Channel

variable {α ω : Type}

def new : Channel α ω := .waiting 1 []

instance : Inhabited (Channel α ω) := ⟨new⟩

/-- What subscribing comes to. -/
inductive Subscribed (α : Type) where
  /-- The observer was registered under a number. -/
  | registered (number : UInt64)
  /-- The channel has fired; the observer receives the value now. -/
  | replayed (value : α)
  deriving DecidableEq, Repr

def value? : Channel α ω → Option α
  | waiting _ _ => none
  | fired v => some v

def isFired (c : Channel α ω) : Bool := c.value?.isSome

/-- The observers still registered, in the order of their subscriptions. -/
def observers : Channel α ω → List (UInt64 × ω)
  | waiting _ os => os
  | fired _ => []

def observerCount (c : Channel α ω) : Nat := c.observers.length

/-- The number that the next observer gets; none is given out once the channel has fired. -/
def nextNumber : Channel α ω → UInt64
  | waiting n _ => n
  | fired _ => 0

def subscribe (c : Channel α ω) (o : ω) : Subscribed α × Channel α ω :=
  match c with
  | waiting n os => (.registered n, waiting (n + 1) (os ++ [(n, o)]))
  | fired v => (.replayed v, c)

/-- Removes the first observer registered under a number, if there is one. -/
def unsubscribe (c : Channel α ω) (number : UInt64) : Channel α ω :=
  match c with
  | waiting n os => waiting n (os.eraseP fun e => e.1 == number)
  | fired _ => c

/-- Fires the channel: the observers to deliver to, or `none` if it has fired before. -/
def fire? (c : Channel α ω) (v : α) : Option (List ω × Channel α ω) :=
  match c with
  | waiting _ os => some (os.map Prod.snd, fired v)
  | fired _ => none

/-- Waits for a moment: an observer is registered that opens a latch, and removed by its number when
the moment has passed. -/
def waitBriefly (c : Channel α ω) (latch : ω) : Channel α ω :=
  (c.subscribe latch).2.unsubscribe c.nextNumber

/-- What is left of waiting for a moment, while numbers have not come round: a number is taken
up. -/
def takeNumber (c : Channel α ω) : Channel α ω :=
  match c with
  | waiting n os => waiting (n + 1) os
  | fired _ => c

@[simp] theorem observers_new : (new : Channel α ω).observers = [] := rfl

@[simp] theorem value?_unsubscribe (c : Channel α ω) (k : UInt64) :
    (c.unsubscribe k).value? = c.value? := by cases c <;> rfl

@[simp] theorem value?_subscribe (c : Channel α ω) (o : ω) :
    (c.subscribe o).2.value? = c.value? := by cases c <;> rfl

@[simp] theorem observers_takeNumber (c : Channel α ω) :
    c.takeNumber.observers = c.observers := by cases c <;> rfl

theorem fire?_eq_none_iff {c : Channel α ω} {v : α} : c.fire? v = none ↔ c.isFired := by
  cases c <;> simp [fire?, isFired, value?]

@[simp] theorem waitBriefly_fired (v : α) (latch : ω) :
    (fired v : Channel α ω).waitBriefly latch = fired v := rfl

end Channel

end FanIn
