import Mathlib.Logic.Function.Iterate
import FanIn.Channel.Run
import FanIn.Channel.Session
import FanIn.Proofs.Hushing

/-!
# Messages about channels

The only messages of a pool of channels are about observers that throw. A pool that is hushed goes its own
way, and so does a session that uses it: both do what they would have done with the lower threshold.

Main statements: `Pool.run_hushed` for all runs of pools, and `Session.iterate_hushed` for scripts, at every
step of the session.
-/

namespace FanIn.Channel

variable {α : Type} {t : Log.Level}

/-- Whether an event is told at a threshold: a message is if its level passes, and all else always. -/
def Event.isHeard (t : Log.Level) : Event α → Bool
  | logged level _ => level.passes t
  | _ => true

namespace Pool

/-- The pool as it is if only the messages up to a level have been logged. -/
def hushed (t : Log.Level) (p : Pool α) : Pool α :=
  { p with threshold := p.threshold.capped t, history := p.history.filter (Event.isHeard t) }

variable {p : Pool α}

theorem note_hushed {e : Event α} (he : e.isHeard t = true) : (p.hushed t).note e = (p.note e).hushed t := by
  simp [note, hushed, he]

theorem log_hushed (l : Log.Level) (m : String) : (p.hushed t).log l m = (p.log l m).hushed t := by
  have hpasses : l.passes (p.hushed t).threshold = (l.passes p.threshold && l.passes t) :=
    Log.Level.passes_capped l p.threshold t
  unfold log
  rw [hpasses]
  cases hl : l.passes t with
  | true =>
    rw [Bool.and_true]
    split
    · exact note_hushed hl
    · rfl
  | false =>
    rw [Bool.and_false, if_neg Bool.false_ne_true]
    split
    · simp [note, hushed, Event.isHeard, hl]
    · rfl

theorem call_hushed (r : Request α) : (p.hushed t).call r = (p.call r).hushed t := by
  have hsame (n : Nat) : (p.hushed t).channel? n = p.channel? n := rfl
  cases r with
  | create => rfl
  | destroy n => rfl
  | subscribe n label =>
    simp only [call, hsame]
    cases p.channel? n with
    | none => rfl
    | some c => cases c <;> rfl
  | unsubscribe n k =>
    simp only [call, hsame]
    cases p.channel? n <;> rfl
  | fire n v =>
    simp only [call, hsame]
    cases (p.channel? n).bind fun c => c.fire? v with
    | none => rfl
    | some fired => exact congrArg (push · _) (note_hushed (p := p.setChannel n (some fired.2)) rfl)
  | wait n =>
    simp only [call, hsame]
    cases p.channel? n <;> rfl

theorem finish_hushed (thrown : Option Failure) : (p.hushed t).finish thrown = (p.finish thrown).hushed t := by
  unfold finish
  rw [show (p.hushed t).stack = p.stack from rfl]
  split
  · cases thrown with
    | none => rfl
    | some f => exact log_hushed (p := { p with stack := _ }) _ _
  · rfl

theorem advance_hushed : (p.hushed t).advance = p.advance.hushed t := by
  unfold advance
  rw [show (p.hushed t).stack = p.stack from rfl]
  split
  · rfl
  · rfl
  · rfl
  · rfl
  · rename_i replay _ _ _ _ _
    exact note_hushed (p := { p with stack := _ }) (by cases replay <;> rfl)
  · rfl

theorem move_hushed (m : Move α) : (p.hushed t).move m = (p.move m).hushed t := by
  cases m with
  | advance => exact advance_hushed
  | call r => exact call_hushed r
  | finish thrown => exact finish_hushed thrown

theorem hushed_start {low high : Log.Level} (h : low.code ≤ high.code) :
    ({ threshold := high } : Pool α).hushed low = { threshold := low } := by
  have hcapped := Log.Level.capped_of_le h
  simp [hushed, hcapped]

theorem run_hushed (moves : List (Move α)) :
    machine.run (p.hushed t) moves = (machine.run p moves).hushed t := by
  induction moves generalizing p with
  | nil => rfl
  | cons m moves ih => exact (congrArg (machine.run · moves) (move_hushed m)).trans ih

theorem legal_hushed (moves : List (Move α)) : machine.legal (p.hushed t) moves = machine.legal p moves := by
  induction moves generalizing p with
  | nil => rfl
  | cons m moves ih =>
    have hallows : (p.hushed t).allows m = p.allows m := by cases m <;> rfl
    calc machine.legal (p.hushed t) (m :: moves)
        = ((p.hushed t).allows m && machine.legal ((p.hushed t).move m) moves) := rfl
      _ = (p.allows m && machine.legal (p.move m) moves) := by rw [hallows, move_hushed, ih]

/-- Nothing that has happened is forgotten. -/
theorem history_move (p : Pool α) (m : Move α) : ∃ new, (p.move m).history = p.history ++ new := by
  have same {h : Array (Event α)} : ∃ new, h = h ++ new := ⟨#[], by rw [Array.append_empty]⟩
  have one {h : Array (Event α)} {e : Event α} : ∃ new, h.push e = h ++ new := ⟨#[e], rfl⟩
  cases m with
  | advance =>
    simp only [move, advance]
    split <;> first | exact same | exact one
  | call r =>
    cases r with
    | create => exact same
    | destroy n => exact same
    | subscribe n label =>
      simp only [move, call]
      cases p.channel? n with
      | none => exact same
      | some c => cases c <;> exact same
    | unsubscribe n k =>
      simp only [move, call]
      cases p.channel? n <;> exact same
    | fire n v =>
      simp only [move, call]
      cases (p.channel? n).bind fun c => c.fire? v <;> first | exact same | exact one
    | wait n =>
      simp only [move, call]
      cases p.channel? n <;> exact same
  | finish thrown =>
    simp only [move, finish]
    split
    · cases thrown with
      | none => exact same
      | some f =>
        simp only [log]
        split <;> first | exact same | exact one
    · exact same

end Pool

/-! ## Sessions -/

/-- Whether an entry of a record is told at a threshold. -/
def Entry.isHeard (t : Log.Level) : Entry → Bool
  | logged level _ => level.passes t
  | _ => true

/-- The record without the messages beyond a level. -/
def Record.hushed (t : Log.Level) (r : Record) : Record :=
  { r with entries := r.entries.filter (Entry.isHeard t) }

namespace Session

/-- The session as it is if only the messages up to a level have been logged. -/
def hushed (t : Log.Level) (s : Session) : Session :=
  { s with
    pool := s.pool.hushed t
    told := Hushing.told (Event.isHeard t) s.pool.history s.told
    entries := s.entries.filter (Entry.isHeard t)
    records := s.records.map (Record.hushed t) }

/-- One session is the other one, hushed. Neither has told what has not happened. -/
structure Hushes (t : Log.Level) (s s' : Session) : Prop where
  eq : s' = s.hushed t
  told : s.told ≤ s.pool.history.size

variable {s s' : Session}

theorem entry?_filter (s : Session) (e : Event String) :
    (if e.isHeard t then s.entry? e else none) = ( s.entry? e).filter (Entry.isHeard t) := by
  cases e with
  | fired n v => rfl
  | observed n label v =>
    simp only [ entry?]
    cases s.observers[label]? <;> rfl
  | replayed n label v =>
    simp only [ entry?]
    cases s.observers[label]? <;> rfl
  | logged level m => rfl

theorem entry?_hushed (s : Session) : Session.entry? (s.hushed t) = s.entry? := rfl

namespace Hushes

/-- A session that has the pool and has told as much as one that is hushed. -/
theorem congr (h : Hushes t s s') {u u' : Session} (hu : u' = u.hushed t) (hpool : u.pool = s.pool)
    (htold : u.told = s.told) : Hushes t u u' :=
  ⟨hu, by rw [hpool, htold]; exact h.told⟩

/-- A move of the pool. -/
theorem move (h : Hushes t s s') (m : Move String) :
    Hushes t { s with pool := s.pool.move m } { s' with pool := s'.pool.move m } := by
  obtain ⟨rfl, htold⟩ := h
  obtain ⟨new, hnew⟩ := s.pool.history_move m
  constructor
  · have hkept : Hushing.told (Event.isHeard t) (s.pool.move m).history s.told =
        Hushing.told (Event.isHeard t) s.pool.history s.told := by
      rw [hnew, Hushing.told_append htold]
    simp only [hushed, hkept, Pool.move_hushed]
  · show s.told ≤ (s.pool.move m).history.size
    rw [hnew, Array.size_append]
    exact Nat.le_add_right_of_le htold

theorem tell (h : Hushes t s s') : Hushes t s.tell s'.tell := by
  obtain ⟨rfl, -⟩ := h
  refine ⟨?_, Nat.le_refl _⟩
  have hentries : ((s.hushed t).pool.history.extract (s.hushed t).told).filterMap s.entry? =
      ((s.pool.history.extract s.told).filterMap s.entry?).filter (Entry.isHeard t) :=
    calc ((s.hushed t).pool.history.extract (s.hushed t).told).filterMap s.entry?
        = ((s.pool.history.extract s.told).filter (Event.isHeard t)).filterMap s.entry? :=
          congrArg (Array.filterMap s.entry? ·) Hushing.filter_extract_told
      _ = _ := Hushing.filterMap_filter s.entry?_filter _
  simp only [Session.tell, entry?_hushed, hentries]
  simp [hushed, Pool.hushed, Hushing.told_size]

/-- The innermost list of steps ends a step. -/
theorem conclude (h : Hushes t s s') (step : Step) (r : Result) :
    Hushes t (s.conclude step r) (s'.conclude step r) := by
  have htell := h.tell
  unfold Session.conclude
  generalize s.tell = u at htell
  generalize s'.tell = u' at htell
  obtain rfl := htell.eq
  dsimp only
  rw [show (u.hushed t).running = u.running from rfl]
  cases u.running with
  | nil => exact htell
  | cons a rest =>
    dsimp only
    cases a.passesOn with
    | none => exact htell.congr (by simp [hushed, Record.hushed]) rfl rfl
    | some passesOn =>
      -- that a step of an observer has ended is told at every threshold
      have hheard : Entry.isHeard t (.nested step.verb r) = true := rfl
      have hnested (running : List Activation) : Hushes t
          { u with entries := u.entries.push (.nested step.verb r), running := running }
          { u.hushed t with entries := (u.hushed t).entries.push (.nested step.verb r), running := running } :=
        htell.congr (by simp [hushed, hheard]) rfl rfl
      cases passesOn with
      | false => exact hnested _
      | true =>
        cases r.failure? with
        | none => exact hnested _
        | some f => exact (hnested rest).move (.finish (some f))

/-- The innermost list of steps waits for a call. -/
theorem await (h : Hushes t s s') (step : Step) (r : Request String) :
    Hushes t (s.await step r) (s'.await step r) := by
  obtain rfl := h.eq
  unfold Session.await
  rw [show (s.hushed t).running = s.running from rfl]
  cases s.running with
  | nil => exact h
  | cons a rest =>
    exact (h.congr (u := { s with running := { a with doing := some step } :: rest }) rfl rfl rfl).move
      (.call r)

theorem withChannel (h : Hushes t s s') (step : Step) (name : String)
    {f f' : Nat → Channel String (Option Nat) → Session} (hf : ∀ n c, Hushes t (f n c) (f' n c)) :
    Hushes t (s.withChannel step name f) (s'.withChannel step name f') := by
  obtain rfl := h.eq
  unfold Session.withChannel
  rw [show (s.hushed t).channels = s.channels from rfl]
  cases s.channels.lookup name with
  | none => exact h.conclude step _
  | some n => exact hf n _

/-- A step begins. -/
theorem undertake (h : Hushes t s s') (step : Step) : Hushes t (s.undertake step) (s'.undertake step) := by
  obtain rfl := h.eq
  unfold Session.undertake
  cases step with
  | create name => exact h.await _ _
  | destroy name =>
    have hforgotten := h.congr (u := { s with channels := s.channels.filter fun e => e.1 != name }) rfl rfl rfl
    exact h.withChannel _ name fun n _ => hforgotten.await _ _
  | subscribe name tag steps passesOn empty =>
    have hknown := h.congr (u := { s with observers := s.observers.push ⟨tag, steps, passesOn⟩ }) rfl rfl rfl
    exact h.withChannel _ name fun n _ => hknown.await _ _
  | unsubscribe tag =>
    dsimp only
    rw [show (s.hushed t).tags = s.tags from rfl]
    rcases s.tags.lookup tag with _ | _ | ⟨n, k⟩
    · exact h.conclude _ _
    · exact h.conclude _ _
    · exact h.await _ _
  | fire name v => exact h.withChannel _ name fun n _ => h.await _ _
  | isFired name => exact h.withChannel _ name fun _ c => h.conclude _ _
  | value name => exact h.withChannel _ name fun _ c => h.conclude _ _
  | count name => exact h.withChannel _ name fun _ c => h.conclude _ _
  | wait name => exact h.withChannel _ name fun _ c => h.conclude _ _
  | waitFor name => exact h.withChannel _ name fun n _ => h.await _ _
  | waitForThread name v =>
    refine h.withChannel _ name fun n c => ?_
    cases c.value? with
    | none => exact h.await _ _
    | some earlier => exact h.conclude _ _
  | throw f => exact h.conclude _ _

/-- A step ends whose call has returned. -/
theorem finish (h : Hushes t s s') (step : Step) : Hushes t (s.finish step) (s'.finish step) := by
  obtain rfl := h.eq
  unfold Session.finish
  rw [show (s.hushed t).pool.reply = s.pool.reply from rfl]
  split
  · rename_i name n _
    have hbound : Hushes t { s with channels := bind s.channels name n }
        { s.hushed t with channels := bind (s.hushed t).channels name n } := h.congr rfl rfl rfl
    rw [show (s.hushed t).channels = s.channels from rfl] at hbound ⊢
    dsimp only
    cases s.channels.lookup name with
    | none => exact hbound.conclude _ _
    | some old => exact (hbound.move (.call (.destroy old))).conclude _ _
  · rename_i tag _ _ _ n number _
    have hbound := h.congr (u := { s with tags := bind s.tags tag (number.map fun k => (n, k)) }) rfl rfl rfl
    exact hbound.conclude _ _
  · exact h.conclude _ _
  · exact h.conclude _ _
  · exact h.conclude _ _
  · exact h.conclude _ _

/-- **One step of a session.** -/
theorem advance (h : Hushes t s s') : Hushes t s.advance s'.advance := by
  obtain rfl := h.eq
  unfold Session.advance
  rw [show (s.hushed t).pool.isClientsTurn = s.pool.isClientsTurn from rfl,
    show (s.hushed t).pool.depth = s.pool.depth from rfl,
    show (s.hushed t).pool.stack = s.pool.stack from rfl, show (s.hushed t).running = s.running from rfl]
  split
  · exact h.move .advance
  · split
    · cases s.pool.stack with
      | nil => exact h
      | cons f rest =>
        cases f with
        | observer n label v =>
          have htell := h.tell
          exact htell.congr (by rw [htell.eq]; rfl) rfl rfl
        | _ => exact h
    · cases s.running with
      | nil => exact h
      | cons a rest =>
        dsimp only
        cases a.doing with
        | some step => exact h.finish step
        | none =>
          cases a.steps with
          | cons step steps =>
            have hbegun := h.congr (u := { s with running := { a with steps := steps } :: rest }) rfl rfl rfl
            exact hbegun.undertake step
          | nil =>
            cases a.passesOn with
            | none => exact h.congr rfl rfl rfl
            | some _ =>
              exact (h.congr (u := { s with running := rest }) rfl rfl rfl).move (.finish none)

theorem iterate (h : Hushes t s s') (n : Nat) : Hushes t (Session.advance^[n] s) (Session.advance^[n] s') := by
  induction n generalizing s s' with
  | zero => exact h
  | succ n ih => exact ih h.advance

/-- The records of a script, if it comes to its end, are those of the other session without the messages
beyond the level. -/
theorem run (h : Hushes t s s') (fuel : Nat) :
    Session.run fuel s' = (Session.run fuel s).map (Array.map (Record.hushed t)) := by
  induction fuel generalizing s s' with
  | zero => rfl
  | succ fuel ih =>
    have hnext := ih h.advance
    obtain rfl := h.eq
    unfold Session.run
    rw [show (s.hushed t).running = s.running from rfl]
    split
    · rfl
    · exact hnext

end Hushes

theorem hushes_start {low high : Log.Level} (h : low.code ≤ high.code) (steps : List Step) :
    Hushes low (start high steps) (start low steps) := by
  refine ⟨?_, Nat.le_refl 0⟩
  have hpool : ({ threshold := high } : Pool String).hushed low = { threshold := low } := Pool.hushed_start h
  simp [hushed, start, hpool, Hushing.told]

end Session

end FanIn.Channel
