import FanIn.Machine
import FanIn.Registry
import FanIn.Proofs.Log.Drafts

/-!
# Streams neither lose nor repeat text

A session is compared with a desk that serves the same requests: each stream has the text, the level and the
tail of the draft that it carries, so a stream that is closed hands over what its draft has become, however
often the draft was handed on before.

Main statement: `streams_keep_text`.
-/

namespace FanIn.Log

/-- What a stream hands over when it is closed, at its level. -/
def Stream.handing? (x : Stream) : Option (Level × String) := x.message?.map (x.level, ·)

/-- Whatever was handed over is logged. -/
def Logger.receive (l : Logger) : Option (Level × String) → Logger
  | some (level, m) => l.log level m
  | none => l

theorem Stream.close_eq (l : Logger) (x : Stream) : x.close l = l.receive x.handing? := by
  unfold Stream.close Stream.handing?
  cases x.message? <;> rfl

theorem Logger.threshold_print (l : Logger) (level : Level) (m : String) :
    (l.print level m).threshold = l.threshold := by
  unfold Logger.print
  split <;> rfl

theorem Logger.threshold_log (l : Logger) (level : Level) (m : String) :
    (l.log level m).threshold = l.threshold := by
  unfold Logger.log
  split
  · rfl
  · split
    · exact Logger.threshold_print ..
    · split <;> rfl

theorem Logger.threshold_install (l : Logger) (sink : Sink) (user : Option String) :
    (l.install sink user).threshold = l.threshold := by
  cases sink <;> rfl

theorem Logger.threshold_receive (l : Logger) (m : Option (Level × String)) :
    (l.receive m).threshold = l.threshold := by
  rcases m with _ | ⟨level, m⟩
  · rfl
  · exact l.threshold_log level m

/-- A client's sink sees a message as far as it is visible, if its level passes. -/
theorem Logger.seen_log {l : Logger} {sink : String} {throws : Option Failure}
    (h : l.sink = .client sink throws) (level : Level) (m : String) :
    (l.log level m).seen =
      if level.passes l.threshold then l.seen.push ⟨level, Text.visible m, l.user⟩ else l.seen := by
  unfold Logger.log Logger.enabled
  cases hp : level.passes l.threshold with
  | false => rfl
  | true => cases throws <;> simp [h]

/-- So does the standard sink. -/
theorem Logger.log_standard {l : Logger} (h : l.sink = .standard) (level : Level) (m : String) :
    l.log level m = if level.passes l.threshold then l.print level (Text.visible m) else l := by
  have hline : Logger.line level (Text.visible m) = Logger.line level m := by
    rw [Logger.line, Text.visible_eq_self (Text.isPlain_visible m), Logger.line]
  unfold Logger.log Logger.enabled Logger.print
  rw [hline]
  cases level.passes l.threshold with
  | false => rfl
  | true => simp [h]

/-- Whether a request is one for streams. -/
def Request.isForStreams : Request → Bool
  | .openStream .. | .write .. | .moveNew .. | .moveInto .. | .close _ => true
  | _ => false

namespace Session

variable {s s' : Session}

/-- Sessions, of which anything may be requested. -/
def machine : Machine Session Request where
  move s r := (s.serve r).2
  allows _ _ := true

/-- What is handed over if the stream of a name is closed. -/
def closing? (s : Session) (name : String) : Option (Level × String) :=
  (s.stream? name).bind Stream.handing?

/-- What is handed over to the logger, as a stream is closed for a request. -/
def handsOver? (s : Session) : Request → Option (Level × String)
  | .openStream name _ _ _ => s.closing? name
  | .moveNew source target =>
    (s.stream? source).bind fun x => (s.put source x.emptied).closing? target
  | .close name => s.closing? name
  | _ => none

/-- All that streams hand over while the requests are served, in order. -/
def handedOver (s : Session) : List Request → List (Level × String)
  | [] => []
  | r :: requests => (s.handsOver? r).toList ++ (s.serve r).2.handedOver requests

/-! ## One stream is changed and the others are not -/

theorem stream?_put (s : Session) (name : String) (x : Stream) (other : String) :
    (s.put name x).stream? other = if other = name then some x else s.stream? other := by
  unfold put forget stream?
  dsimp only
  rw [Registry.lookup_cons_eq, Registry.lookup_filter_ne]
  by_cases ho : other = name <;> simp [ho]

theorem closing?_put (s : Session) (name : String) (x : Stream) (other : String) :
    (s.put name x).closing? other = if other = name then x.handing? else s.closing? other := by
  unfold closing?
  rw [stream?_put]
  split <;> rfl

theorem stream?_closeNamed (s : Session) (name other : String) :
    (s.closeNamed name).stream? other = if other = name then none else s.stream? other := by
  unfold closeNamed
  split
  · exact Registry.lookup_filter_ne name other s.streams
  · rename_i hnone
    by_cases ho : other = name
    · rw [if_pos ho, ho, hnone]
    · rw [if_neg ho]

theorem stream?_enter (s : Session) (name : String) (x : Stream) (other : String) :
    (s.enter name x).stream? other = if other = name then some x else s.stream? other := by
  rw [enter, stream?_put, stream?_closeNamed]
  by_cases ho : other = name <;> simp [ho]

theorem logger_closeNamed (s : Session) (name : String) :
    (s.closeNamed name).logger = s.logger.receive (s.closing? name) := by
  unfold closeNamed closing?
  split
  · rename_i x hx
    simp only [hx, Option.bind_some, Stream.close_eq]
  · rename_i hnone
    simp only [hnone, Option.bind_none, Logger.receive]

theorem threshold_closeNamed (s : Session) (name : String) :
    (s.closeNamed name).logger.threshold = s.logger.threshold := by
  rw [logger_closeNamed, Logger.threshold_receive]

theorem serve_close (s : Session) (name : String) : (s.serve (.close name)).2 = s.closeNamed name := by
  unfold serve closeNamed
  dsimp only
  cases s.stream? name <;> rfl

theorem put_put (s : Session) (name : String) (x y : Stream) : (s.put name x).put name y = s.put name y := by
  simp [put, forget]

end Session

/-! ## What a stream shows of its draft -/

namespace Draft

/-- The stream that carries a draft. If the draft was not admitted, it has no text. -/
def stream (x : Draft) : Stream :=
  { level := x.level, active := x.admitted, tail := x.tail, text := if x.admitted then x.body else "" }

theorem handing?_stream (x : Draft) : x.stream.handing? = x.message? := by
  unfold Stream.handing? Stream.message? message? stream
  cases x.admitted with
  | false => rfl
  | true => cases h : (x.body ++ x.tail).isEmpty <;> simp [h]

theorem body_add (x : Draft) (n : Nat) (p : Piece) : (x.add n p).body = x.body ++ p.render := by
  simp [body, add]

theorem write_stream (x : Draft) (n : Nat) (p : Piece) : x.stream.write p = (x.add n p).stream := by
  have hadmitted : (x.add n p).admitted = x.admitted := rfl
  unfold Stream.write stream
  rw [hadmitted, body_add]
  cases x.admitted <;> rfl

end Draft

/-- What there is of a stream shows what is carried: it is the stream of the draft, or empty and inactive. -/
inductive Shows (d : Desk) : Option Stream → Option (Option Nat) → Prop
  | gone : Shows d none none
  | nothing (level : Level) : Shows d (some ⟨level, false, "", ""⟩) (some none)
  | draft {i : Nat} {x : Draft} (h : d.drafts[i]? = some x) : Shows d (some x.stream) (some (some i))

/-- The streams of a session show what the desk says they carry. -/
structure Tracks (s : Session) (d : Desk) : Prop where
  threshold : s.logger.threshold = d.threshold
  shows : ∀ name, Shows d (s.stream? name) (d.carried name)

section

variable {s s' : Session} {d d' : Desk} {name : String} {x : Stream}

/-- What is carried may be shown as long as the draft is as it is. -/
theorem Shows.mono {o : Option Stream} {c : Option (Option Nat)} (h : Shows d o c)
    (hsame : ∀ i y, c = some (some i) → d.drafts[i]? = some y → d'.drafts[i]? = some y) : Shows d' o c := by
  cases h with
  | gone => exact .gone
  | nothing level => exact .nothing level
  | draft hi => exact .draft (hsame _ _ rfl hi)

/-- Closing a stream hands over what its draft has become. -/
theorem Shows.handing? {o : Option Stream} {c : Option (Option Nat)} (h : Shows d o c) :
    o.bind Stream.handing? = c.join.bind d.message? := by
  cases h with
  | gone => rfl
  | nothing level => rfl
  | draft hi => simp [Desk.message?, hi, Draft.handing?_stream]

theorem Shows.isSome_eq {o : Option Stream} {c : Option (Option Nat)} (h : Shows d o c) :
    o.isSome = c.isSome := by
  cases h <;> rfl

theorem tracks_start (l : Logger) : Tracks ⟨l, []⟩ { threshold := l.threshold } :=
  ⟨rfl, fun _ => .gone⟩

theorem Tracks.closing? (h : Tracks s d) (name : String) :
    s.closing? name = (d.carried name).join.bind d.message? := (h.shows name).handing?

theorem Tracks.congr (h : Tracks s d) (hthreshold : s'.logger.threshold = d.threshold)
    (hs : ∀ name, s'.stream? name = s.stream? name) : Tracks s' d :=
  ⟨hthreshold, fun name => hs name ▸ h.shows name⟩

theorem Tracks.close (h : Tracks s d) (name : String) : Tracks (s.closeNamed name) (d.close name) := by
  constructor
  · exact (s.threshold_closeNamed name).trans h.threshold
  · intro other
    rw [Session.stream?_closeNamed, Desk.carried_close]
    split
    · exact .gone
    · exact (h.shows other).mono fun _ _ _ hy => hy

theorem Tracks.begin (h : Tracks s d) (name : String) (x : Draft) :
    Tracks (s.put name x.stream) (d.begin name x) := by
  constructor
  · exact h.threshold
  · intro other
    rw [Session.stream?_put, Desk.carried_begin]
    split
    · exact .draft (by simp [Desk.begin])
    · refine (h.shows other).mono fun i y _ hy => ?_
      obtain ⟨hi, -⟩ := List.getElem?_eq_some_iff.1 hy
      exact (List.getElem?_append_left hi).trans hy

/-- What one stream carries is handed over to another one, whatever that one carried. -/
theorem Tracks.handOver (h : Tracks s d) {source target : String} (hx : s.stream? source = some x)
    (hthreshold : s'.logger.threshold = s.logger.threshold)
    (hs : ∀ other, s'.stream? other =
      if other = target then some x else if other = source then some x.emptied else s.stream? other) :
    Tracks s' (d.handOver source target) := by
  constructor
  · exact hthreshold.trans h.threshold
  · intro other
    rw [hs, Desk.carried_handOver]
    split
    · rw [← hx]
      exact (h.shows source).mono fun _ _ _ hy => hy
    · split
      · exact .nothing x.level
      · exact (h.shows other).mono fun _ _ _ hy => hy

theorem Tracks.giveUp (h : Tracks s d) (name : String) (x : Stream) :
    Tracks (s.put name x.emptied) (d.giveUp name) := by
  constructor
  · exact h.threshold
  · intro other
    rw [Session.stream?_put, Desk.carried_giveUp]
    split
    · exact .nothing x.level
    · exact (h.shows other).mono fun _ _ _ hy => hy

/-- A piece goes to the draft that the stream carries, and no other stream carries that one. -/
theorem Tracks.write (h : Tracks s d) (hd : d.Housed) (hx : s.stream? name = some x) (p : Piece) :
    Tracks (s.put name (x.write p)) (d.write name p) := by
  constructor
  · exact h.threshold
  · intro other
    change Shows _ _ (d.carried other)
    rw [Session.stream?_put]
    split
    · rename_i ho
      have hold : Shows d (some x) (d.carried other) := by rw [ho, ← hx]; exact h.shows name
      generalize hc : d.carried other = c at hold ⊢
      cases hold with
      | nothing level => exact .nothing level
      | @draft i x hi =>
        have hcarried : (d.carried name).join = some i := by rw [← ho, hc]; rfl
        rw [Draft.write_stream x d.written p]
        exact .draft (by rw [Desk.drafts_write, if_pos hcarried, hi, Option.map_some])
    · rename_i ho
      refine (h.shows other).mono fun i y hi hy => ?_
      rw [Desk.drafts_write, if_neg, hy]
      intro hcarried
      have hplaces := hd.once (p := .stream name) (q := .stream other) hcarried (by simp [Desk.at?, hi])
      exact ho (Desk.Place.stream.inj hplaces).symm

theorem Tracks.writes (h : Tracks s d) (hd : d.Housed) (hx : s.stream? name = some x) (pieces : List Piece) :
    Tracks (s.put name (pieces.foldl Stream.write x)) (pieces.foldl (Desk.write name) d) := by
  induction pieces generalizing s d x with
  | nil =>
    refine h.congr h.threshold fun other => ?_
    rw [Session.stream?_put]
    split
    · rename_i ho
      rw [ho, hx, List.foldl_nil]
    · rfl
  | cons p pieces ih =>
    have hrest := ih (h.write hd hx p) (hd.write name p) (by rw [Session.stream?_put, if_pos rfl])
    rwa [Session.put_put] at hrest

theorem Tracks.serve_openStream (h : Tracks s d) (name : String) (level : Level) (active : Bool)
    (tail : String) :
    Tracks (s.serve (.openStream name level active tail)).2
      (d.serve (.openStream name level active tail)) := by
  have hopen : Stream.openOn s.logger level active tail =
      Draft.stream ⟨level, tail, active && level.passes d.threshold, []⟩ := by
    rw [← h.threshold]
    unfold Stream.openOn Draft.stream
    dsimp only
    split <;> rfl
  change Tracks (s.enter name (Stream.openOn s.logger level active tail)) _
  rw [hopen]
  exact (h.close name).begin name _

theorem Tracks.serve_write (h : Tracks s d) (hd : d.Housed) (name : String) (pieces : List Piece) :
    Tracks (s.serve (.write name pieces)).2 (d.serve (.write name pieces)) := by
  have hsome := (h.shows name).isSome_eq
  unfold Session.serve Desk.serve
  dsimp only
  split
  · rename_i x hx
    rw [← hsome, hx, if_pos Option.isSome_some]
    exact h.writes hd hx pieces
  · rename_i hnone
    rw [← hsome, hnone, if_neg (by simp)]
    exact h

theorem Tracks.serve_moveNew (h : Tracks s d) (source target : String) :
    Tracks (s.serve (.moveNew source target)).2 (d.serve (.moveNew source target)) := by
  have hsome := (h.shows source).isSome_eq
  unfold Session.serve Desk.serve
  dsimp only
  split
  · rename_i x hx
    rw [← hsome, hx]
    by_cases hne : source = target
    · -- the stream is emptied and put back
      rw [if_neg fun hmove => hmove.2 hne, ← hne]
      refine h.congr ((Session.threshold_closeNamed ..).trans h.threshold) fun other => ?_
      rw [Session.stream?_enter, Session.stream?_put]
      split
      · rename_i ho
        rw [ho, hx]
      · rfl
    · rw [if_pos ⟨Option.isSome_some, hne⟩]
      refine (h.close target).handOver (x := x) ?_ ?_ fun other => ?_
      · rw [Session.stream?_closeNamed, if_neg hne, hx]
      · exact (Session.threshold_closeNamed ..).trans (s.threshold_closeNamed target).symm
      · rw [Session.stream?_enter, Session.stream?_put, Session.stream?_closeNamed]
        split <;> rfl
  · rename_i hnone
    rw [← hsome, hnone, if_neg (by simp)]
    exact h

theorem Tracks.serve_moveInto (h : Tracks s d) (source target : String) :
    Tracks (s.serve (.moveInto source target)).2 (d.serve (.moveInto source target)) := by
  have hsource := (h.shows source).isSome_eq
  have htarget := (h.shows target).isSome_eq
  unfold Session.serve Desk.serve
  dsimp only
  rw [← hsource, ← htarget]
  cases hx : s.stream? source with
  | none => exact h
  | some x =>
    cases hy : s.stream? target with
    | none => exact h
    | some y =>
      dsimp only
      by_cases hne : source = target
      · rw [if_pos (beq_iff_eq.2 hne), if_neg fun hmove => hmove.2.2 hne]
        exact h
      · rw [if_neg fun heq => hne (beq_iff_eq.1 heq), if_pos ⟨Option.isSome_some, Option.isSome_some, hne⟩]
        refine (h.giveUp target y).handOver (x := x) ?_ rfl fun other => ?_
        · rw [Session.stream?_put, if_neg hne, hx]
        · simp only [Session.stream?_put]
          split <;> rfl

theorem Tracks.serve (h : Tracks s d) (hd : d.Housed) (r : Request) : Tracks (s.serve r).2 (d.serve r) := by
  cases r with
  | setLevel level => exact ⟨rfl, fun name => (h.shows name).mono fun _ _ _ hy => hy⟩
  | isEnabled level => exact h
  | log level m =>
    cases m with
    | none => exact h
    | some m => exact h.congr ((Logger.threshold_log ..).trans h.threshold) fun _ => rfl
  | print level m =>
    cases m with
    | none => exact h
    | some m => exact h.congr ((Logger.threshold_print ..).trans h.threshold) fun _ => rfl
  | install sink user => exact h.congr ((Logger.threshold_install ..).trans h.threshold) fun _ => rfl
  | sink => exact h
  | openStream name level active tail => exact h.serve_openStream name level active tail
  | write name pieces => exact h.serve_write hd name pieces
  | moveNew source target => exact h.serve_moveNew source target
  | moveInto source target => exact h.serve_moveInto source target
  | close name =>
    rw [Session.serve_close]
    exact h.close name

/-! ## What is handed over -/

theorem Tracks.handed_serve (h : Tracks s d) (hd : d.Housed) (r : Request) :
    (d.serve r).handed = d.handed ++ (s.handsOver? r).toList := by
  cases r with
  | openStream name level active tail =>
    change _ = d.handed ++ (s.closing? name).toList
    rw [h.closing? name, ← Desk.handed_close]
    exact Desk.handed_begin (hd.close name) _ _
  | close name =>
    change _ = d.handed ++ (s.closing? name).toList
    rw [h.closing? name, ← Desk.handed_close]
    rfl
  | write name pieces =>
    unfold Desk.serve Session.handsOver?
    dsimp only
    split
    · exact (Desk.handed_writes hd name pieces).trans (List.append_nil _).symm
    · exact (List.append_nil _).symm
  | moveNew source target =>
    have hsome := (h.shows source).isSome_eq
    unfold Desk.serve Session.handsOver?
    dsimp only
    rw [← hsome]
    cases hx : s.stream? source with
    | none =>
      rw [if_neg (by simp)]
      exact (List.append_nil _).symm
    | some x =>
      by_cases hne : source = target
      · rw [if_neg fun hmove => hmove.2 hne, Option.bind_some, Session.closing?_put, if_pos hne.symm]
        exact (List.append_nil _).symm
      · rw [if_pos ⟨Option.isSome_some, hne⟩, Option.bind_some, Session.closing?_put, if_neg (Ne.symm hne)]
        exact h.closing? target ▸ Desk.handed_close d target
  | moveInto source target =>
    unfold Desk.serve Session.handsOver?
    dsimp only
    split <;> exact (List.append_nil _).symm
  | setLevel | isEnabled | log | print | install | sink => exact (List.append_nil _).symm

theorem Tracks.handed_serveAll (h : Tracks s d) (hd : d.Housed) (requests : List Request) :
    (d.serveAll requests).handed = d.handed ++ s.handedOver requests := by
  induction requests generalizing s d with
  | nil => exact (List.append_nil _).symm
  | cons r requests ih =>
    have hrest := ih (h.serve hd r) (hd.serve r)
    rw [h.handed_serve hd r, List.append_assoc] at hrest
    exact hrest

theorem Tracks.run (h : Tracks s d) (hd : d.Housed) (requests : List Request) :
    Tracks (Session.machine.run s requests) (d.serveAll requests) := by
  induction requests generalizing s d with
  | nil => exact h
  | cons r requests ih => exact ih (h.serve hd r) (hd.serve r)

/-- Requests for streams change the logger by nothing but what is handed over. -/
theorem Session.logger_serve (s : Session) {r : Request} (hr : r.isForStreams = true) :
    (s.serve r).2.logger = s.logger.receive (s.handsOver? r) := by
  cases r with
  | openStream name => exact s.logger_closeNamed name
  | write name pieces =>
    unfold Session.serve
    dsimp only
    split <;> rfl
  | moveNew source target =>
    unfold Session.serve Session.handsOver?
    dsimp only
    cases s.stream? source with
    | none => rfl
    | some x => exact (s.put source x.emptied).logger_closeNamed target
  | moveInto source target =>
    unfold Session.serve
    dsimp only
    split
    · split <;> rfl
    · rfl
    · rfl
  | close name =>
    rw [Session.serve_close]
    exact s.logger_closeNamed name
  | setLevel | isEnabled | log | print | install | sink => cases hr

/-! ## Streams that were moved away, and the end of a session -/

/-- A stream that carries nothing has no text and hands over nothing. -/
theorem Tracks.of_empty (h : Tracks s d) (hname : (d.carried name).join = none)
    (hx : s.stream? name = some x) : x.text = "" ∧ x.handing? = none := by
  have hshows := h.shows name
  rw [hx] at hshows
  generalize d.carried name = c at hname hshows
  cases hshows with
  | nothing level => exact ⟨rfl, rfl⟩
  | draft hi => cases hname

/-- The stream that something was moved from carries nothing. -/
theorem Tracks.empty_of_move (h : Tracks s d) {source target : String} {r : Request} (hne : source ≠ target)
    (hsource : (s.stream? source).isSome = true)
    (hr : r = .moveNew source target ∨ r = .moveInto source target ∧ (s.stream? target).isSome = true) :
    ((d.serve r).carried source).join = none := by
  rw [(h.shows source).isSome_eq] at hsource
  rcases hr with rfl | ⟨rfl, htarget⟩
  · rw [Desk.serve, if_pos ⟨hsource, hne⟩]
    exact Desk.empty_handOver hne
  · rw [(h.shows target).isSome_eq] at htarget
    rw [Desk.serve, if_pos ⟨hsource, htarget, hne⟩]
    exact Desk.empty_handOver hne

theorem Session.stream?_closeAll (s : Session) (names : List String) (name : String) :
    (names.foldl Session.closeNamed s).stream? name = if name ∈ names then none else s.stream? name := by
  induction names generalizing s with
  | nil => simp
  | cons other names ih =>
    rw [List.foldl_cons, ih, Session.stream?_closeNamed]
    by_cases hname : name = other <;> simp [hname]

theorem Session.stream?_finish (s : Session) (name : String) : s.finish.stream? name = none := by
  rw [Session.finish, stream?_closeAll]
  split
  · rfl
  · rename_i hname
    refine List.lookup_eq_none_iff.2 fun e he => bne_iff_ne.2 fun heq => hname ?_
    exact List.mem_mergeSort.2 (List.mem_map.2 ⟨e, he, heq.symm⟩)

/-- The end of a session is as if the streams still open were closed by requests. -/
theorem Session.finish_eq (s : Session) : s.finish = Session.machine.run s (s.names.map .close) := by
  rw [Session.finish, Machine.run, List.foldl_map]
  exact congrArg (fun f => List.foldl f s s.names) (funext₂ fun s name => (s.serve_close name).symm)

end

/-- **Streams neither lose nor repeat text.** A session is started with any logger, and any requests are
served. The desk that serves the same requests says which draft every stream carries and which drafts have
ended with their streams.

* What the streams have handed over is what the ended drafts have become, in order: for each that was
  admitted when it was begun and that has any text, the pieces written to it, in order, then its tail, at
  its level. No draft ends twice, and no piece is in two drafts, nor twice in one.
* Every draft is carried by one stream, or has ended, or another one was moved over it. There are as many as
  streams were opened, however often they were moved; and every stream has the text, the level and the tail
  of the draft that it carries.
* A request for streams changes the logger by nothing but what a stream hands over. That reaches the sink,
  as far as it is visible, if its level passes the threshold of that moment.
* A stream that was moved has no text and hands over nothing, whatever is requested, until its name is
  filled again.
* When the session ends, all streams are closed, as they would be by requests. -/
theorem streams_keep_text (l : Logger) {requests : List Request} {s : Session} {d : Desk}
    (hs : Session.machine.run ⟨l, []⟩ requests = s)
    (hd : Desk.serveAll { threshold := l.threshold } requests = d) :
    Session.handedOver ⟨l, []⟩ requests = d.ended.filterMap d.message? ∧
    d.ended.Nodup ∧ (d.ended.flatMap d.numbers).Nodup ∧ d.Housed ∧
    d.drafts.length = requests.countP Request.opens ∧ s.logger.threshold = d.threshold ∧
    (∀ name, Shows d (s.stream? name) (d.carried name)) ∧
    (∀ r, r.isForStreams = true →
      (s.serve r).2.logger = s.logger.receive (s.handsOver? r) ∧
      ∀ level m, s.handsOver? r = some (level, m) →
        (∀ sink throws, s.logger.sink = .client sink throws → (s.serve r).2.logger.seen =
          if level.passes d.threshold then s.logger.seen.push ⟨level, Text.visible m, s.logger.user⟩
          else s.logger.seen) ∧
        (s.logger.sink = .standard → (s.serve r).2.logger =
          if level.passes d.threshold then s.logger.print level (Text.visible m) else s.logger)) ∧
    (∀ source target r more, source ≠ target → (s.stream? source).isSome = true →
      (r = .moveNew source target ∨ r = .moveInto source target ∧ (s.stream? target).isSome = true) →
      (∀ q ∈ more, Request.fills source q = false) →
      ∀ x, (Session.machine.run s (r :: more)).stream? source = some x → x.text = "" ∧ x.handing? = none) ∧
    s.finish = Session.machine.run s (s.names.map .close) ∧ ∀ name, s.finish.stream? name = none := by
  have hstart := tracks_start l
  have hhoused : d.Housed := hd ▸ Desk.housed_run l.threshold requests
  have hnumbered : d.Numbered := hd ▸ Desk.numbered_run l.threshold requests
  have htracks : Tracks s d := hs ▸ hd ▸ hstart.run (Desk.housed_start l.threshold) requests
  have hlength := Desk.length_serveAll { threshold := l.threshold } requests
  rw [hd] at hlength
  refine ⟨?_, hhoused.nodup_ended, hnumbered.nodup_flatMap hhoused.nodup_ended, hhoused,
    hlength.trans (Nat.zero_add _), htracks.threshold, htracks.shows,
    fun r hr => ⟨s.logger_serve hr, fun level m hm => ?_⟩, ?_, s.finish_eq, s.stream?_finish⟩
  · have hhanded := hstart.handed_serveAll (Desk.housed_start l.threshold) requests
    rw [hd] at hhanded
    exact hhanded.symm
  · rw [s.logger_serve hr, hm, ← htracks.threshold]
    exact ⟨fun sink throws hsink => Logger.seen_log hsink level m,
      fun hsink => Logger.log_standard hsink level m⟩
  · intro source target r more hne hsource hr hmore x hx
    have hempty := Desk.empty_serveAll (htracks.empty_of_move hne hsource hr) hmore
    exact ((htracks.serve hhoused r).run (hhoused.serve r) more).of_empty hempty hx

/-- Clients see what is logged. -/
def watched : Logger := { threshold := .warning, sink := .client "watch" none }

/-- One draft goes from "a" to "b" and back while the threshold changes. Another one is not admitted, and a
third one is moved over it. -/
def wanderings : List Request :=
  [.openStream "a" .warning true "!", .write "a" [.text "one"], .moveNew "a" "b", .write "a" [.text "lost"],
    .write "b" [.text "\x00two", .number 7], .openStream "c" .info true "?", .write "c" [.text "unheard"],
    .moveInto "b" "a", .moveInto "a" "a", .setLevel .error, .openStream "d" .error true "",
    .write "d" [.flag true], .moveInto "d" "c", .openStream "e" .error true "", .close "e", .close "c",
    .setLevel .warning]

theorem streams_keep_text_wandering :
    ∃ s d, Session.machine.run ⟨watched, []⟩ wanderings = s ∧
      Desk.serveAll { threshold := watched.threshold } wanderings = d ∧
      Session.handedOver ⟨watched, []⟩ wanderings = [(.error, "1")] ∧
      d.ended.filterMap d.message? = [(.error, "1")] ∧ d.drafts.length = 4 ∧
      Request.isForStreams (.close "a") = true ∧ s.handsOver? (.close "a") = some (.warning, "one\x00two7!") ∧
      (∃ throws, s.logger.sink = .client "watch" throws) ∧
      (s.serve (.close "a")).2.logger.seen = #[⟨.error, "1", none⟩, ⟨.warning, "one", none⟩] ∧
      (s.stream? "a").isSome = true ∧ Request.fills "a" (.write "a" [.text "late"]) = false ∧
      ∃ x, (Session.machine.run s [.moveNew "a" "f", .write "a" [.text "late"]]).stream? "a" = some x ∧
        x.text = "" ∧ x.handing? = none := by
  obtain ⟨hhanded, -, -, -, hlength, -, -, hlogger, hmoved, -⟩ :=
    @streams_keep_text watched wanderings _ _ rfl rfl
  have hover : Session.handedOver ⟨watched, []⟩ wanderings = [(.error, "1")] := by decide +kernel
  have hclose : (Session.machine.run ⟨watched, []⟩ wanderings).handsOver? (.close "a") =
      some (.warning, "one\x00two7!") := by decide +kernel
  have hsink : (Session.machine.run ⟨watched, []⟩ wanderings).logger.sink = .client "watch" none := rfl
  have hseen := ((hlogger (.close "a") rfl).2 _ _ hclose).1 "watch" none hsink
  have hsome : ((Session.machine.run ⟨watched, []⟩ wanderings).stream? "a").isSome = true := by decide +kernel
  have hleft : ((Session.machine.run (Session.machine.run ⟨watched, []⟩ wanderings)
      [.moveNew "a" "f", .write "a" [.text "late"]]).stream? "a").isSome = true := by decide +kernel
  obtain ⟨x, hx⟩ := Option.isSome_iff_exists.1 hleft
  have hempty := hmoved "a" "f" _ [.write "a" [.text "late"]] (by decide) hsome (.inl rfl)
    (fun q hq => by rw [List.mem_singleton.1 hq]; rfl) x hx
  exact ⟨_, _, rfl, rfl, hover, hhanded.symm.trans hover, hlength, rfl, hclose, ⟨none, hsink⟩,
    hseen.trans (by decide +kernel), hsome, rfl, x, hx, hempty⟩

end FanIn.Log
