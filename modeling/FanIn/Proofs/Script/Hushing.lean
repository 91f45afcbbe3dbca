import Mathlib.Logic.Function.Iterate
import FanIn.Proofs.Tree.Hushing
import FanIn.Script.Run

/-!
# Scripts at a lower threshold

A script that leaves the log level alone, and whose callbacks do, is run in the same way at every threshold.
A session is *hushed* by hushing its world, and by leaving out of what it has told the messages beyond the
level. Each step of a session that is hushed makes of it what it would have made of the session, hushed:
nothing that a session does depends on what was logged.

Main statement: `Hushes.advance`, put together from one lemma for each way in which a session goes on.
-/

namespace FanIn.Script

/-! ## Scripts that leave the level alone -/

mutual

/-- Whether a step leaves the log level alone, and so does whatever it lets run later. -/
def Step.sparesLevel : Step → Bool
  | .level _ => false
  | .handler _ _ steps _ => spareLevel steps
  | .subscribe _ _ steps _ _ => spareLevel steps
  | _ => true

/-- Whether all steps leave the log level alone. -/
def spareLevel : List Step → Bool
  | [] => true
  | step :: steps => step.sparesLevel && spareLevel steps

end

/-- Whether a call leaves the log level alone. -/
def sparesLevel : Call → Bool
  | .setThreshold _ => false
  | _ => true

/-- Whether the calls that are still to be made for a step leave the log level alone. -/
def Stage.sparesLevel : Stage → Bool
  | linkRoot _ _ left => left.all Script.sparesLevel
  | _ => true

def Reaction.sparesLevel : Reaction → Bool
  | script _ steps _ => spareLevel steps
  | _ => true

def Activation.sparesLevel (a : Activation) : Bool :=
  spareLevel a.steps && a.doing.all fun d => d.stage.sparesLevel

/-! ## Sessions -/

variable {t : Log.Level}

/-- Whether an entry of a record is told at a threshold. -/
def Entry.isHeard (t : Log.Level) : Entry → Bool
  | logged level _ => level.passes t
  | _ => true

/-- The record without the messages beyond a level. -/
def Record.hushed (t : Log.Level) (r : Record) : Record :=
  { r with entries := r.entries.filter (Entry.isHeard t) }

namespace Session

/-- The session as it is if only the messages up to a level have been logged. -/
def hushed (t : Log.Level) (s : Session) : Session :=
  { s with
    world := s.world.hushed t
    told := Hushing.told (Event.isHeard t) s.world.history s.told
    entries := s.entries.filter (Entry.isHeard t)
    records := s.records.map (Record.hushed t) }

/-- Nothing that is to run changes the log level. -/
structure SparesLevel (s : Session) : Prop where
  running : ∀ a ∈ s.running, a.sparesLevel = true
  handlers : ∀ h ∈ s.handlers, spareLevel h.steps = true
  observers : ∀ o ∈ s.observers, o.sparesLevel = true

/-- One session is the other one, hushed. Neither has told what has not happened, or will change the log
level. -/
structure Hushes (t : Log.Level) (s s' : Session) : Prop where
  eq : s' = s.hushed t
  told : s.told ≤ s.world.history.size
  spares : s.SparesLevel

variable {s s' : Session}

theorem entry?_filter (s : Session) (e : Event) :
    (if e.isHeard t then s.entry? e else none) = ( s.entry? e).filter (Entry.isHeard t) := by
  have hsighting (label : Nat) (v : Value) :
      s.sighting? label v = (s.sighting? label v).filter (Entry.isHeard t) := by
    unfold sighting?
    split <;> rfl
  cases e with
  | observed ch label v => exact hsighting label v
  | replayed ch label v => exact hsighting label v
  | _ => rfl

theorem entry?_hushed (s : Session) : Session.entry? (s.hushed t) = s.entry? := rfl

namespace Hushes

/-! ## What a session is made of -/

/-- A session that has the world, has told as much and lets the same run as one that is hushed. -/
theorem congr (h : Hushes t s s') {u u' : Session} (hu : u' = u.hushed t)
    (hworld : (u.world, u.told) = (s.world, s.told))
    (hruns : (u.running, u.handlers, u.observers) = (s.running, s.handlers, s.observers)) :
    Hushes t u u' := by
  obtain ⟨hworld, htold⟩ := Prod.mk.inj hworld
  obtain ⟨hrunning, hhandlers, hobservers⟩ : u.running = s.running ∧ u.handlers = s.handlers ∧
    u.observers = s.observers := by simpa using hruns
  refine ⟨hu, by rw [hworld, htold]; exact h.told, ?_, ?_, ?_⟩
  · rw [hrunning]; exact h.spares.running
  · rw [hhandlers]; exact h.spares.handlers
  · rw [hobservers]; exact h.spares.observers

/-- Other lists of steps are being run. -/
theorem withRunning (h : Hushes t s s') {running : List Activation}
    (hr : ∀ a ∈ running, a.sparesLevel = true) :
    Hushes t { s with running := running } { s' with running := running } := by
  obtain rfl := h.eq
  exact ⟨rfl, h.told, hr, h.spares.handlers, h.spares.observers⟩

/-- Another observer is known. -/
theorem withObserver (h : Hushes t s s') {o : Reaction} (ho : o.sparesLevel = true) :
    Hushes t { s with observers := s.observers.push o } { s' with observers := s'.observers.push o } := by
  obtain rfl := h.eq
  refine ⟨rfl, h.told, h.spares.running, h.spares.handlers, fun o' ho' => ?_⟩
  rcases Array.mem_push.1 ho' with hold | rfl
  · exact h.spares.observers o' hold
  · exact ho

/-- A move of the world. -/
theorem move (h : Hushes t s s') {m : Move} (hm : ∀ l, m ≠ .call (.setThreshold l)) :
    Hushes t { s with world := s.world.move m } { s' with world := s'.world.move m } := by
  obtain ⟨rfl, htold, hspares⟩ := h
  have hnew := World.history_move s.world m
  refine ⟨?_, ?_, hspares.running, hspares.handlers, hspares.observers⟩
  · have hkept : Hushing.told (Event.isHeard t) (s.world.move m).history s.told =
        Hushing.told (Event.isHeard t) s.world.history s.told := by
      rw [hnew, Hushing.told_append htold]
    simp only [hushed, hkept, World.move_hushed hm]
  · show s.told ≤ (s.world.move m).history.size
    rw [hnew, Array.size_append]
    exact Nat.le_add_right_of_le htold

theorem call (h : Hushes t s s') {c : Call} (hc : sparesLevel c = true) : Hushes t (s.call c) (s'.call c) :=
  h.move (m := .call c) fun l hl => by
    cases hl
    cases hc

theorem giveBack (h : Hushes t s s') (refs : List Ref) : Hushes t (s.giveBack refs) (s'.giveBack refs) := by
  induction refs generalizing s s' with
  | nil => exact h
  | cons r refs ih => exact ih (h.call rfl)

theorem keep (h : Hushes t s s') (refs : List Ref) : Hushes t (s.keep refs) (s'.keep refs) := by
  induction refs generalizing s s' with
  | nil => exact h
  | cons r refs ih => exact ih (h.call rfl)

theorem bindContext (h : Hushes t s s') (name : String) (c : ContextNo) :
    Hushes t (s.bindContext name c) (s'.bindContext name c) := by
  obtain rfl := h.eq
  exact (h.congr (u := { s with
    names := bind s.names name c, ids := bind s.ids name (s.world.idOf c) }) rfl rfl rfl).giveBack _

theorem unbindContext (h : Hushes t s s') (name : String) :
    Hushes t (s.unbindContext name) (s'.unbindContext name) := by
  obtain rfl := h.eq
  exact (h.congr (u := { s with names := unbind s.names name }) rfl rfl rfl).giveBack _

theorem bindSignal (h : Hushes t s s') (name : String) (n : SignalNo) :
    Hushes t (s.bindSignal name n) (s'.bindSignal name n) := by
  obtain rfl := h.eq
  exact (h.congr (u := { s with signals := bind s.signals name n }) rfl rfl rfl).giveBack _

theorem tell (h : Hushes t s s') : Hushes t s.tell s'.tell := by
  obtain ⟨rfl, -, hspares⟩ := h
  refine ⟨?_, Nat.le_refl _, hspares.running, hspares.handlers, hspares.observers⟩
  have hentries : ((s.hushed t).world.history.extract (s.hushed t).told).filterMap s.entry? =
      ((s.world.history.extract s.told).filterMap s.entry?).filter (Entry.isHeard t) :=
    calc ((s.hushed t).world.history.extract (s.hushed t).told).filterMap s.entry?
        = ((s.world.history.extract s.told).filter (Event.isHeard t)).filterMap s.entry? :=
          congrArg (Array.filterMap s.entry? ·) Hushing.filter_extract_told
      _ = _ := Hushing.filterMap_filter s.entry?_filter _
  simp only [Session.tell, entry?_hushed, hentries]
  simp [hushed, World.hushed, Hushing.told_size]

/-! ## Ending steps -/

/-- The innermost callback ends. -/
theorem leave (h : Hushes t s s') (owner : Owner) (thrown : Option Failure) :
    Hushes t (s.leave owner thrown) (s'.leave owner thrown) := by
  cases owner with
  | script => exact h
  | observer passesOn => exact h.move (m := .finish thrown) nofun
  | teller => exact h.move (m := .finish thrown) nofun
  | handler n saved =>
    cases thrown with
    | none => exact h.move (m := .handled .nothing) nofun
    | some f => exact h.move (m := .handled (.threw f)) nofun

theorem restoreFailing (h : Hushes t s s') (saved : Option ContextNo) :
    Hushes t (s.restoreFailing saved) (s'.restoreFailing saved) := by
  have hunbound := h.unbindContext failingName
  unfold Session.restoreFailing
  cases saved with
  | none => exact hunbound
  | some c =>
    obtain heq := hunbound.eq
    exact hunbound.congr (by rw [heq]; rfl) rfl rfl

/-- The innermost list of steps ends a step. -/
theorem conclude (h : Hushes t s s') (step : Step) (kept : List Ref) (r : Result) :
    Hushes t (s.conclude step kept r) (s'.conclude step kept r) := by
  have htell := (h.giveBack kept).tell
  unfold Session.conclude
  generalize (s.giveBack kept).tell = u at htell
  generalize (s'.giveBack kept).tell = u' at htell
  have heq := htell.eq
  dsimp only
  rw [show u'.running = u.running by rw [heq]; rfl, show u'.summaries = u.summaries by rw [heq]; rfl]
  cases hu : u.running with
  | nil => exact htell
  | cons a rest =>
    have hrest : ∀ b ∈ rest, b.sparesLevel = true := fun b hb =>
      htell.spares.running b (hu ▸ List.mem_cons_of_mem a hb)
    have hdone : ∀ b ∈ { a with doing := none } :: rest, b.sparesLevel = true := by
      have ha := htell.spares.running a (hu ▸ List.mem_cons_self)
      simp only [Activation.sparesLevel, Bool.and_eq_true] at ha
      exact List.forall_mem_cons.2 ⟨by simp [Activation.sparesLevel, ha.1], hrest⟩
    dsimp only
    split
    · exact (htell.withRunning hdone).congr (by simp [heq, hushed, Record.hushed]) rfl rfl
    · -- that a step of a callback has ended is told at every threshold
      have hheard : Entry.isHeard t (.nested step.verb r) = true := rfl
      have hnested {running : List Activation} (hr : ∀ b ∈ running, b.sparesLevel = true) : Hushes t
          { u with entries := u.entries.push (.nested step.verb r), running := running }
          { u' with entries := u'.entries.push (.nested step.verb r), running := running } :=
        (htell.withRunning hr).congr (by simp [heq, hushed, hheard]) rfl rfl
      have hpasses : Session.passesOn
            { u' with entries := u'.entries.push (.nested step.verb r), running := a :: rest } a.owner =
          Session.passesOn
            { u with entries := u.entries.push (.nested step.verb r), running := a :: rest } a.owner := by
        rw [heq]
        rfl
      rw [hpasses]
      split
      · split
        · exact ((hnested hrest).restoreFailing _).leave _ _
        · exact (hnested hrest).leave _ _
      · exact hnested hdone

/-- The innermost list of steps waits for a call. -/
theorem await (h : Hushes t s s') {d : Doing} (hd : d.stage.sparesLevel = true) {c : Call}
    (hc : sparesLevel c = true) : Hushes t (s.await d c) (s'.await d c) := by
  obtain rfl := h.eq
  unfold Session.await
  rw [show (s.hushed t).running = s.running from rfl]
  cases hs : s.running with
  | nil => exact h
  | cons a rest =>
    have ha := h.spares.running a (hs ▸ List.mem_cons_self)
    simp only [Activation.sparesLevel, Bool.and_eq_true] at ha
    refine (h.withRunning (List.forall_mem_cons.2 ⟨?_, fun b hb => ?_⟩)).call hc
    · simp [Activation.sparesLevel, ha.1, hd]
    · exact h.spares.running b (hs ▸ List.mem_cons_of_mem a hb)

/-! ## Looking names up -/

theorem withName {β : Type} (h : Hushes t s s') (step : Step) (names : List (String × β)) (name : String)
    {f f' : β → Session} (hf : ∀ b, Hushes t (f b) (f' b)) :
    Hushes t (s.withName step names name f) (s'.withName step names name f') := by
  unfold Session.withName
  cases names.lookup name with
  | none => exact h.conclude step _ _
  | some b => exact hf b

theorem withName? {β : Type} (h : Hushes t s s') (step : Step) (names : List (String × β))
    (name : Option String) {f f' : Option β → Session} (hf : ∀ b, Hushes t (f b) (f' b)) :
    Hushes t (s.withName? step names name f) (s'.withName? step names name f') := by
  cases name with
  | none => exact hf none
  | some name => exact h.withName step names name fun b => hf (some b)

theorem callOn (h : Hushes t s s') (step : Step) (name : String) {c : ContextNo → Call}
    (hc : ∀ n, sparesLevel (c n) = true) : Hushes t (s.callOn step name c) (s'.callOn step name c) := by
  obtain rfl := h.eq
  exact h.withName step s.names name fun n => (h.call (c := .hold (.context n)) rfl).await rfl (hc n)

theorem withTarget (h : Hushes t s s') (step : Step) (target : Target)
    {f f' : ChannelRef → List Ref → Session} (hf : ∀ ch refs, Hushes t (f ch refs) (f' ch refs)) :
    Hushes t (s.withTarget step target f) (s'.withTarget step target f') := by
  obtain rfl := h.eq
  cases target with
  | outlet name outlet => exact h.withName step s.names name fun c => hf _ _
  | signal name => exact h.withName step s.signals name fun n => hf _ _

/-- A session that has taken the oldest signal of an exception handler, if there is one. -/
theorem takeQueued (h : Hushes t s s') (handler : Nat) :
    s.takeQueued handler = none ∧ s'.takeQueued handler = none ∨
      ∃ n u u', s.takeQueued handler = some (n, u) ∧ s'.takeQueued handler = some (n, u') ∧ Hushes t u u' := by
  obtain rfl := h.eq
  unfold Session.takeQueued
  rw [show (s.hushed t).queues = s.queues from rfl]
  split
  · exact .inr ⟨_, _, _, rfl, rfl, h.congr rfl rfl rfl⟩
  · exact .inl ⟨rfl, rfl⟩

/-! ## Chains -/

theorem growChain (h : Hushes t s s') (step : Step) (name : String) (kept : List Ref) (left : Nat)
    (current : ContextNo) :
    Hushes t (s.growChain step name kept left current) (s'.growChain step name kept left current) := by
  obtain rfl := h.eq
  cases left with
  | zero => exact (h.bindContext name current).conclude step kept _
  | succ left => exact h.await rfl rfl

theorem growRoots (h : Hushes t s s') (step : Step) (stem : String) (depth : Nat) (handler : Option Nat)
    (index : Nat) (roots : List ContextNo) :
    Hushes t (s.growRoots step stem depth handler index roots)
      (s'.growRoots step stem depth handler index roots) := by
  obtain rfl := h.eq
  unfold Session.growRoots
  split
  · exact h.await rfl rfl
  · cases roots with
    | nil => exact h.conclude step [] _
    | cons last earlier => exact h.await rfl rfl

/-- The observers of a chain do not change the log level, and neither do the calls that subscribe them. -/
theorem linkCalls (h : Hushes t s s') (depth index : Nat) (c : ContextNo) (before : Option ContextNo) :
    ∃ calls u u', s.linkCalls depth index c before = (calls, u) ∧ s'.linkCalls depth index c before = (calls, u') ∧
      calls.all sparesLevel = true ∧ Hushes t u u' := by
  obtain rfl := h.eq
  unfold Session.linkCalls
  cases before with
  | none =>
    dsimp only
    split
    · exact ⟨_, _, _, rfl, rfl, rfl, h.withObserver (o := .note index) rfl⟩
    · exact ⟨_, _, _, rfl, rfl, rfl, h⟩
  | some p =>
    have hlinked := h.withObserver (o := .tell p) rfl
    dsimp only
    split
    · exact ⟨_, _, _, rfl, rfl, rfl, hlinked.withObserver (o := .note index) rfl⟩
    · exact ⟨_, _, _, rfl, rfl, rfl, hlinked⟩

theorem linkRoots (h : Hushes t s s') (step : Step) (stem : String) (depth : Nat) (handler : Option Nat)
    (index : Nat) (roots : List ContextNo) {calls : List Call} (hc : calls.all sparesLevel = true) :
    Hushes t (s.linkRoots step stem depth handler index roots calls)
      (s'.linkRoots step stem depth handler index roots calls) := by
  cases calls with
  | nil => exact h.growRoots step stem depth handler (index + 1) roots
  | cons c left =>
    obtain ⟨hc, hleft⟩ := Bool.and_eq_true_iff.1 hc
    exact h.await (d := { step := step, stage := .linkRoot index roots left }) hleft hc

/-! ## Steps -/

/-- A step begins, unless it changes the log level. -/
theorem undertake (h : Hushes t s s') {step : Step} (hstep : step.sparesLevel = true) :
    Hushes t (s.undertake step) (s'.undertake step) := by
  obtain rfl := h.eq
  unfold Session.undertake
  cases step with
  | handler name conduct steps passesOn =>
    have hknown : Hushes t
        { s with
          handlerNames := bind s.handlerNames name s.handlers.size
          handlers := s.handlers.push ⟨name, conduct, steps, passesOn⟩
          queues := s.queues.push [] } _ :=
      ⟨rfl, h.told, h.spares.running, fun x hx => ?_, h.spares.observers⟩
    · exact hknown.conclude _ _ _
    · rcases Array.mem_push.1 hx with hold | rfl
      · exact h.spares.handlers x hold
      · exact hstep
  | flow name label handler statistics =>
    exact h.withName? _ s.handlerNames handler fun handler =>
      (h.congr (u := { s with flows := bind s.flows name ⟨label, handler, statistics⟩ }) rfl rfl rfl).conclude
        _ _ _
  | create name flow args =>
    exact h.withName? _ s.flows flow fun flow => h.withName? _ s.signals args.link fun link => h.await rfl rfl
  | bridge name id serverId handler args =>
    exact h.withName? _ s.handlerNames handler fun handler =>
      h.withName? _ s.signals args.link fun link => h.await rfl rfl
  | child parent name location handler correlation =>
    exact h.withName _ s.names parent fun _ =>
      h.withName? _ s.handlerNames handler fun handler => h.callOn _ _ fun _ => rfl
  | chain source name depth succeed =>
    exact h.withName _ s.names source fun c => (h.keep _).growChain _ _ _ _ _
  | observerChain stem depth handler =>
    exact h.withName? _ s.handlerNames handler fun handler =>
      (h.congr (u := { s with noted := [] }) rfl rfl rfl).growRoots _ _ _ _ _ _
  | success name result => exact h.callOn _ _ fun _ => rfl
  | error name failure bindAs => exact h.callOn _ _ fun _ => rfl
  | addChild name => exact h.callOn _ _ fun _ => rfl
  | childCompleted name => exact h.callOn _ _ fun _ => rfl
  | subscribe target tag steps passesOn empty =>
    have hknown := h.withObserver (o := .script tag steps passesOn) hstep
    exact h.withTarget _ target fun ch refs => (hknown.keep refs).await rfl rfl
  | unsubscribe tag =>
    refine h.withName _ s.tags tag fun b => ?_
    obtain ⟨ch, n⟩ := b
    cases n with
    | none => exact h.conclude _ _ _
    | some n => exact h.await rfl rfl
  | view target => exact h.withTarget _ target fun ch _ => h.conclude _ _ _
  | wait target => exact h.withTarget _ target fun ch refs => (h.keep refs).await rfl rfl
  | fire name outlet r => exact h.callOn _ _ fun _ => by cases outlet <;> rfl
  | fireSignal name r => exact h.withName _ s.signals name fun n => (h.keep _).await rfl rfl
  | signal name fired => exact h.await rfl rfl
  | rethrow name => exact h.withName _ s.signals name fun n => h.conclude _ _ _
  | dropSignal name =>
    exact h.withName _ s.signals name fun n =>
      ((h.congr (u := { s with signals := unbind s.signals name }) rfl rfl rfl).giveBack _).conclude _ _ _
  | resolve handler r =>
    refine h.withName _ s.handlerNames handler fun n => ?_
    rcases h.takeQueued n with ⟨hs, hs'⟩ | ⟨k, u, u', hs, hs', hu⟩ <;> rw [hs, hs']
    · exact h.conclude _ _ _
    · exact hu.await rfl rfl
  | discard handler =>
    refine h.withName _ s.handlerNames handler fun n => ?_
    rcases h.takeQueued n with ⟨hs, hs'⟩ | ⟨k, u, u', hs, hs', hu⟩ <;> rw [hs, hs']
    · exact h.conclude _ _ _
    · exact hu.conclude _ _ _
  | queue handler => exact h.withName _ s.handlerNames handler fun n => h.conclude _ _ _
  | drop name => exact h.withName _ s.names name fun _ => (h.unbindContext name).conclude _ _ _
  | sameAs source name =>
    exact h.withName _ s.names source fun c => ((h.keep _).bindContext name c).conclude _ _ _
  | parent source name =>
    refine h.withName _ s.names source fun c => ?_
    rw [show ((s.hushed t).world.contexts[c]?).bind (s.hushed t).world.parent? =
      (s.world.contexts[c]?).bind s.world.parent? from rfl]
    cases (s.world.contexts[c]?).bind s.world.parent? with
    | none => exact h.conclude _ _ _
    | some p => exact ((h.keep _).bindContext name p).conclude _ _ _
  | find query =>
    cases query with
    | id id => exact h.conclude _ _ _
    | idOf name extra => exact h.withName _ s.ids name fun id => h.conclude _ _ _
  | registrySize => exact h.conclude _ _ _
  | register id name => exact h.callOn _ _ fun _ => rfl
  | unregister id name => exact h.callOn _ _ fun _ => rfl
  | info name => exact h.withName _ s.names name fun c => h.conclude _ _ _
  | print name => exact h.withName _ s.names name fun c => h.conclude _ _ _
  | processor name path => exact h.callOn _ _ fun _ => rfl
  | level level => cases hstep
  | throw f => exact h.conclude _ _ _

/-- A step goes on whose call has answered. -/
theorem proceed (h : Hushes t s s') {d : Doing} (hd : d.stage.sparesLevel = true) (r : Reply) :
    Hushes t (s.proceed d r) (s'.proceed d r) := by
  obtain rfl := h.eq
  have ends (result : Result) := h.conclude d.step d.kept result
  unfold Session.proceed
  dsimp only
  split
  · -- a chain goes on below its new child
    split
    · exact h.await rfl rfl
    · exact (h.giveBack _).growChain _ _ _ _ _
  · exact (h.giveBack _).growChain _ _ _ _ _
  · rename_i index roots stem depth handler c _ _
    obtain ⟨calls, u, u', hs, hs', hcalls, hu⟩ := h.linkCalls depth index c roots.head?
    obtain rfl := hu.eq
    rw [hs, hs']
    exact hu.linkRoots _ _ _ _ _ _ hcalls
  · rename_i hstage _
    rw [hstage] at hd
    exact h.linkRoots _ _ _ _ _ _ hd
  · exact h.conclude _ _ _
  · exact ((h.congr (u := { s with generated := s.generated + 1 }) rfl rfl rfl).bindContext _ _).conclude _ _ _
  · exact (h.bindContext _ _).conclude _ _ _
  · exact (h.bindContext _ _).conclude _ _ _
  · split
    · exact (h.bindSignal _ _).conclude _ _ _
    · exact h.conclude _ _ _
  · rename_i target tag steps passesOn empty ch n _ _
    exact (h.congr (u := { s with tags := bind s.tags tag (ch, n) }) rfl rfl rfl).conclude _ _ _
  · rw [show (s.hushed t).names = s.names from rfl]
    split
    · exact ends _
    · exact ends _
  · rw [show (s.hushed t).signals = s.signals from rfl]
    split
    · exact ends _
    · exact ends _
  · exact (h.bindSignal _ _).conclude _ _ _
  · exact ends _
  · exact ends _
  · exact ends _

/-- A step ends, or goes on, whose call has returned. -/
theorem finish (h : Hushes t s s') {d : Doing} (hd : d.stage.sparesLevel = true) :
    Hushes t (s.finish d) (s'.finish d) := by
  obtain rfl := h.eq
  unfold Session.finish
  rw [show (s.hushed t).world.reply = s.world.reply from rfl]
  cases s.world.reply with
  | ok r => exact h.proceed hd r
  | error f => exact h.conclude _ _ _

/-! ## Callbacks -/

/-- What a callback begins with leaves the log level alone. -/
theorem begin (h : Hushes t s s') {a : Activation} (ha : a.sparesLevel = true) :
    ∀ b ∈ a :: s.running, b.sparesLevel = true :=
  List.forall_mem_cons.2 ⟨ha, h.spares.running⟩

/-- A callback begins to run. -/
theorem enter (h : Hushes t s s') : Hushes t s.enter s'.enter := by
  have htell := h.tell
  obtain rfl := h.eq
  unfold Session.enter
  rw [show (s.hushed t).world.stack = s.world.stack from rfl]
  split
  · rename_i label _ _ _
    rw [show (s.hushed t).observers = s.observers from rfl]
    cases ho : s.observers[label]? with
    | none => exact h.move (m := .finish none) nofun
    | some o =>
      have hquiet := h.spares.observers o (Array.mem_of_getElem? ho)
      cases o with
      | script tag steps passesOn =>
        exact htell.withRunning (htell.begin (a := { owner := .observer passesOn, steps := steps })
          (by simpa [Activation.sparesLevel, Reaction.sparesLevel] using hquiet))
      | tell c =>
        exact (h.withRunning (h.begin (a := { owner := .teller, leaving := true }) rfl)).call
          (c := .childCompleted c) rfl
      | note n =>
        exact (h.congr (u := { s with noted := n :: s.noted }) rfl rfl rfl).move (m := .finish none) nofun
  · rename_i n c _ _ _ _
    have hquiet : spareLevel ((s.handlers[n]?).elim [] Handler.steps) = true := by
      cases hn : s.handlers[n]? with
      | none => rfl
      | some x => exact h.spares.handlers x (Array.mem_of_getElem? hn)
    have hkept := htell.keep [.context c]
    dsimp only
    rw [show (s.hushed t).tell.handlers = s.handlers from rfl, show s.tell.handlers = s.handlers from rfl,
      show (s.hushed t).tell.names = s.names from rfl, show s.tell.names = s.names from rfl]
    generalize s.tell.keep [.context c] = u at hkept ⊢
    generalize (s.hushed t).tell.keep [.context c] = u' at hkept ⊢
    obtain rfl := hkept.eq
    have hrun := hkept.withRunning (hkept.begin
      (a := { owner := .handler n (s.names.lookup failingName)
              steps := (s.handlers[n]?).elim [] Handler.steps })
      (by simpa [Activation.sparesLevel] using hquiet))
    exact hrun.congr rfl rfl rfl
  · exact h

/-- The steps of a callback are done. -/
theorem exit (h : Hushes t s s') {a : Activation} {rest : List Activation} (hs : s.running = a :: rest) :
    Hushes t (s.exit a rest) (s'.exit a rest) := by
  have ha : a.sparesLevel = true := h.spares.running a (hs ▸ List.mem_cons_self)
  have hrest : ∀ b ∈ rest, b.sparesLevel = true := fun b hb =>
    h.spares.running b (hs ▸ List.mem_cons_of_mem a hb)
  -- an exception handler returns what it has come to, after it has done what it is there for
  have answers {u u' : Session} (hu : Hushes t u u') (answer : Handled) : Hushes t
      { u with running := rest, world := u.world.handled answer }
      { u' with running := rest, world := u'.world.handled answer } :=
    (hu.withRunning hrest).move (m := .handled answer) nofun
  obtain ⟨owner, steps, doing, leaving⟩ := a
  unfold Session.exit
  cases owner with
  | script => exact h.withRunning hrest
  | observer passesOn => exact (h.withRunning hrest).move (m := .finish none) nofun
  | teller =>
    obtain rfl := h.eq
    dsimp only
    rw [show (s.hushed t).world.reply = s.world.reply from rfl]
    exact (h.withRunning hrest).move (m := .finish _) nofun
  | handler n saved =>
    dsimp only
    split
    · obtain rfl := h.eq
      rw [show (s.hushed t).world.reply = s.world.reply from rfl]
      split
      · rename_i k _
        rw [show (s.hushed t).handlers = s.handlers from rfl]
        split
        · have hkept := h.keep [.signal k]
          dsimp only
          rw [show (s.hushed t).queues = s.queues from rfl]
          generalize s.keep [.signal k] = u at hkept ⊢
          generalize (s.hushed t).keep [.signal k] = u' at hkept ⊢
          obtain rfl := hkept.eq
          exact answers (hkept.congr (u := { u with queues := s.queues.modify n fun q => q ++ [k] })
            rfl rfl rfl) _
        · exact answers h _
      · exact answers h _
    · have hrestored := h.restoreFailing saved
      generalize s.restoreFailing saved = u at hrestored ⊢
      generalize s'.restoreFailing saved = u' at hrestored ⊢
      obtain rfl := hrestored.eq
      let a : Activation := { owner := .handler n saved, steps := steps, doing := doing, leaving := true }
      have hleaving : ∀ b ∈ a :: rest, b.sparesLevel = true := List.forall_mem_cons.2 ⟨ha, hrest⟩
      have makes (r : Option Resolution) : Hushes t
          (Session.call { u with running := a :: rest } (.makeSignal r))
          (Session.call { u.hushed t with running := a :: rest } (.makeSignal r)) :=
        (hrestored.withRunning hleaving).call (c := .makeSignal r) rfl
      rw [show (u.hushed t).handlers = u.handlers from rfl, show (u.hushed t).signals = u.signals from rfl]
      split
      · exact makes _
      · exact makes _
      · exact makes _
      · exact answers hrestored _
      · split
        · exact answers (hrestored.keep _) _
        · exact answers hrestored _
      · exact answers hrestored _

/-! ## Running -/

/-- **One step of a session.** -/
theorem advance (h : Hushes t s s') : Hushes t s.advance s'.advance := by
  obtain rfl := h.eq
  unfold Session.advance
  rw [show (s.hushed t).world.isClientsTurn = s.world.isClientsTurn from rfl,
    show (s.hushed t).world.depth = s.world.depth from rfl, show (s.hushed t).running = s.running from rfl]
  split
  · exact h.move (m := .advance) nofun
  · split
    · exact h.enter
    · cases hs : s.running with
      | nil => exact h
      | cons a rest =>
        have ha := h.spares.running a (hs ▸ List.mem_cons_self)
        have hrest : ∀ b ∈ rest, b.sparesLevel = true := fun b hb =>
          h.spares.running b (hs ▸ List.mem_cons_of_mem a hb)
        obtain ⟨owner, steps, doing, leaving⟩ := a
        obtain ⟨hsteps, hdoing⟩ := Bool.and_eq_true_iff.1 ha
        cases doing with
        | some d => exact h.finish hdoing
        | none =>
          cases steps with
          | cons step steps =>
            obtain ⟨hstep, hsteps⟩ := Bool.and_eq_true_iff.1 hsteps
            have hbegun : ∀ b ∈ { owner := owner, steps := steps, leaving := leaving } :: rest,
                b.sparesLevel = true :=
              List.forall_mem_cons.2 ⟨Bool.and_eq_true_iff.2 ⟨hsteps, rfl⟩, hrest⟩
            exact (h.withRunning hbegun).undertake hstep
          | nil => exact h.exit hs

theorem iterate (h : Hushes t s s') (n : Nat) : Hushes t (Session.advance^[n] s) (Session.advance^[n] s') := by
  induction n generalizing s s' with
  | zero => exact h
  | succ n ih => exact ih h.advance

/-- A session that is hushed comes to its end with the other one, and is that one, hushed. -/
theorem run (h : Hushes t s s') (fuel : Nat) : s'.run fuel = (s.run fuel).map (hushed t) := by
  induction fuel generalizing s s' with
  | zero => rfl
  | succ fuel ih =>
    have hnext := ih h.advance
    obtain rfl := h.eq
    unfold Session.run
    rw [show (s.hushed t).running = s.running from rfl]
    split
    · rfl
    · exact hnext

end Hushes

/-- What runs a script, before its first step. -/
def begun (threshold : Log.Level) (steps : List Step) : Session :=
  { start threshold with running := [{ owner := .script, steps := steps }] }

theorem hushes_begun {low high : Log.Level} (h : low.code ≤ high.code) {steps : List Step}
    (hsteps : spareLevel steps = true) : Hushes low (begun high steps) (begun low steps) := by
  refine ⟨?_, Nat.le_refl 0, fun a ha => ?_, nofun, nofun⟩
  · have hworld : ({ threshold := low } : World) = World.hushed low { threshold := high } :=
      (World.hushed_start h).symm
    simp [begun, start, hworld, hushed, Hushing.told]
  · obtain rfl := List.mem_singleton.1 ha
    simpa [Activation.sparesLevel] using hsteps

end Session

end FanIn.Script
