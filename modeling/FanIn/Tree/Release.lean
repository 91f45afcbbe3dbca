import FanIn.Tree.World

/-!
# Letting go of references

A context or a signal exists as long as something refers to it: a client, a live child that is
not complete, an observer waiting at a channel of something that exists, the queue, or work under
way. When the last reference is given up it is destroyed there and then, which gives up the
references it held itself, so destruction climbs from a child to its parent.

Destruction calls no code of a client. All that is seen of it is a warning for each context that
had not completed, and a free id in the registry.

Main statement: `weight_destroy`, by which `releaseAll` comes to an end. Whatever is destroyed
weighs more than the references it gives up.
-/

namespace FanIn.World

/-- Whether something refers to a context or a signal. -/
def isHeld (w : World) (r : Ref) : Bool :=
  0 < w.holders r ||
  w.stack.any (fun f => f.refs.contains r) ||
  (w.queue.getD []).any (fun c => Ref.context c == r) ||
  w.contexts.any (fun x => x.isLive && x.keeps r) ||
  w.signals.any (fun x => x.isLive && x.keeps r)

def isLiveRef (w : World) : Ref → Bool
  | .context c => w.isLive c
  | .signal s => w.isLiveSignal s

/-- What is referred to, and what that refers to in turn. -/
def refsOf (w : World) : Ref → List Ref
  | .context c => (w.contexts[c]?).elim [] Context.refs
  | .signal s => (w.signals[s]?).elim [] Signal.refs

/-- The warning about a context destroyed before it was complete. -/
def abandonment (x : Context) : String :=
  "context " ++ x.id ++ " destroyed before completing (" ++ x.state.name ++ ", " ++
    toString x.slots.pending.toInt ++ " pending)"

/-- What a context leaves behind when it is destroyed. One that was never registered, because its id
was in use, was never seen by anyone: it has no id to give back, and nobody waits for it. -/
def farewell (w : World) (c : ContextNo) (x : Context) (isRegistered : Bool) : World :=
  if isRegistered then
    let w := { w with registry := w.registry.unregister x.id c }.note (.destroyed c)
    if x.isComplete then w else w.log .warning (abandonment x)
  else w

/-- The contexts of a world have all been registered when they were entered. -/
def destroy (w : World) : Ref → World
  | .context c =>
    match w.contexts[c]? with
    | none => w
    | some x =>
      (w.farewell c x true).modifyContext c fun x => { x with isLive := false, hold := none }
  | .signal s => w.modifySignal s fun x => { x with isLive := false }

/-- What the members of a list add up to. -/
def total {α : Type} (g : α → Nat) (l : List α) : Nat := l.foldr (fun x n => g x + n) 0

def weight (w : World) : Nat :=
  total Context.weight w.contexts.toList + total Signal.weight w.signals.toList

theorem total_modify {α : Type} (l : List α) (i : Nat) (x : α) (f : α → α) (g : α → Nat)
    (hx : l[i]? = some x) (hf : g (f x) = 0) :
    total g (l.modify i f) + g x = total g l := by
  induction l generalizing i with
  | nil => simp at hx
  | cons a l ih =>
    cases i with
    | zero =>
      obtain rfl : a = x := by simpa using hx
      simp only [List.modify_zero_cons, total, List.foldr_cons, hf]
      omega
    | succ i =>
      have := ih i (by simpa using hx)
      simp only [List.modify_succ_cons, total, List.foldr_cons] at this ⊢
      omega

theorem contexts_log (w : World) (l : Log.Level) (m : String) :
    (w.log l m).contexts = w.contexts := by unfold log; split <;> rfl

theorem signals_log (w : World) (l : Log.Level) (m : String) :
    (w.log l m).signals = w.signals := by unfold log; split <;> rfl

theorem contexts_farewell (w : World) (c : ContextNo) (x : Context) (isRegistered : Bool) :
    (w.farewell c x isRegistered).contexts = w.contexts := by
  unfold farewell
  split
  · dsimp only
    split
    · rfl
    · rw [contexts_log]; rfl
  · rfl

theorem signals_farewell (w : World) (c : ContextNo) (x : Context) (isRegistered : Bool) :
    (w.farewell c x isRegistered).signals = w.signals := by
  unfold farewell
  split
  · dsimp only
    split
    · rfl
    · rw [signals_log]; rfl
  · rfl

/-- Whatever is destroyed weighs more than the references it gives up. -/
theorem weight_destroy {w : World} {r : Ref} (h : w.isLiveRef r) :
    (w.destroy r).weight + (w.refsOf r).length < w.weight := by
  cases r with
  | context c =>
    simp only [isLiveRef, isLive] at h
    cases hx : w.contexts[c]? with
    | none => simp [hx] at h
    | some x =>
      have hl : x.isLive = true := by simpa [hx] using h
      have key := total_modify w.contexts.toList c x
        (fun x => { x with isLive := false, hold := none }) Context.weight
        (by simpa using hx) (by simp [Context.weight])
      have hw : x.weight = 1 + x.refs.length := by simp [Context.weight, hl]
      simp only [weight, destroy, refsOf, hx, modifyContext, Array.toList_modify, Option.elim,
        contexts_farewell, signals_farewell]
      omega
  | signal s =>
    simp only [isLiveRef, isLiveSignal] at h
    cases hx : w.signals[s]? with
    | none => simp [hx] at h
    | some x =>
      have hl : x.isLive = true := by simpa [hx] using h
      have key := total_modify w.signals.toList s x
        (fun x => { x with isLive := false }) Signal.weight
        (by simpa using hx) (by simp [Signal.weight])
      have hw : x.weight = 1 + x.refs.length := by simp [Signal.weight, hl]
      simp only [weight, destroy, refsOf, hx, modifySignal, Array.toList_modify, Option.elim]
      omega

/-- Gives up references one after the other. Whatever nothing refers to any more is destroyed
before the next one is given up, and the references it held are given up first. -/
def releaseAll (w : World) : List Ref → World
  | [] => w
  | r :: rest =>
    if _h : w.isLiveRef r then
      if w.isHeld r || rest.contains r then releaseAll w rest
      else releaseAll (w.destroy r) (w.refsOf r ++ rest)
    else releaseAll w rest
termination_by refs => w.weight + refs.length
decreasing_by
  · simp
  · have := weight_destroy _h; simp; omega
  · simp

/-- Letting go of what something else refers to as well destroys nothing. -/
theorem releaseAll_of_isHeld {w : World} {refs : List Ref} (h : ∀ r ∈ refs, w.isHeld r = true) :
    w.releaseAll refs = w := by
  induction refs with
  | nil => rw [releaseAll]
  | cons r rest ih =>
    have hrest := ih fun s hs => h s (List.mem_cons_of_mem r hs)
    rw [releaseAll, h r List.mem_cons_self, Bool.true_or, if_pos rfl, hrest]
    split <;> rfl

/-- A context that was made and could not be registered is destroyed again, in the middle of the call
that made it. The call keeps alive what it was given until it is over. -/
def discard (w : World) (c : ContextNo) (x : Context) (given : List Ref) : World :=
  let v := ((w.push [.returning .done given]).farewell c x false).releaseAll x.refs
  { v with stack := v.stack.tail }

/-- Nothing is seen of that. -/
theorem discard_eq {w : World} {x : Context} {given : List Ref} (h : x.refs ⊆ given) (c : ContextNo) :
    w.discard c x given = w := by
  have hheld : ∀ r ∈ x.refs, (w.push [.returning .done given]).isHeld r = true := by
    intro r hr
    have hgiven : (Frame.returning .done given).refs.contains r = true :=
      List.contains_iff_mem.2 (h hr)
    simp only [isHeld, push, List.cons_append, List.any_cons, hgiven, Bool.true_or, Bool.or_true]
  have hfarewell : (w.push [.returning .done given]).farewell c x false =
      w.push [.returning .done given] := rfl
  rw [discard, hfarewell, releaseAll_of_isHeld hheld]
  rfl

end FanIn.World
