import Mathlib.Data.List.Nodup
import FanIn.Log.Session

/-!
# Drafts

A stream is opened for one message. What becomes of the message is told here without any text being moved:
opening a stream begins a draft, pieces are written to the draft that a stream carries, and a stream that
is moved hands its draft over and carries nothing from then on. A draft ends with the stream that carries
it, or is given up for another one that is moved over it.

Main statements: `housed_run`, that every draft is carried by one stream, or has ended, or has been given
up, and only one of these; and `numbered_run`, that every piece is written to one draft at most, once.
-/

namespace FanIn.Log

/-- A message in the making: what its stream was opened with, and what was written to it. -/
structure Draft where
  level : Level
  tail : String
  /-- Whether it was opened active, at a level that the threshold of that moment let through. -/
  admitted : Bool
  /-- What was written to it, each piece with its number among all that were ever written. -/
  pieces : List (Nat × Piece) := []

namespace Draft

def add (x : Draft) (n : Nat) (p : Piece) : Draft := { x with pieces := x.pieces ++ [(n, p)] }

def numbers (x : Draft) : List Nat := x.pieces.map Prod.fst

/-- The texts of the pieces, in order. -/
def body (x : Draft) : String := String.join (x.pieces.map fun p => p.2.render)

/-- The message that it is in the end: none if it was not admitted, or if there is no text. -/
def message? (x : Draft) : Option (Level × String) :=
  if x.admitted && !(x.body ++ x.tail).isEmpty then some (x.level, x.body ++ x.tail) else none

end Draft

/-- The drafts of all streams that were ever opened. They are known by their numbers. -/
structure Desk where
  threshold : Level
  drafts : List Draft := []
  /-- What the stream of a name carries, if there is one: a draft, or nothing. -/
  carried : String → Option (Option Nat) := fun _ => none
  /-- The drafts that ended with their streams, in order. -/
  ended : List Nat := []
  /-- The drafts that others were moved over. -/
  givenUp : List Nat := []
  /-- How many pieces were written so far, to any streams. -/
  written : Nat := 0

/-- Whether something may be put into the stream of a name, or a new stream in its place. -/
def Request.fills (name : String) : Request → Bool
  | .openStream target .. | .moveNew _ target | .moveInto _ target => target == name
  | _ => false

/-- Whether a request begins a draft. -/
def Request.opens : Request → Bool
  | .openStream .. => true
  | _ => false

namespace Desk

/-- The stream of a name is closed, if there is one: what it carries ends. -/
def close (d : Desk) (name : String) : Desk :=
  { d with
    carried := Function.update d.carried name none
    ended := d.ended ++ (d.carried name).join.toList }

/-- What the stream of a name carries is given up. -/
def giveUp (d : Desk) (name : String) : Desk :=
  { d with
    carried := Function.update d.carried name (some none)
    givenUp := d.givenUp ++ (d.carried name).join.toList }

/-- A draft is begun with a new stream. -/
def begin (d : Desk) (name : String) (x : Draft) : Desk :=
  { d with
    drafts := d.drafts ++ [x]
    carried := Function.update d.carried name (some (some d.drafts.length)) }

/-- What one stream carries is handed over to another one. -/
def handOver (d : Desk) (source target : String) : Desk :=
  { d with
    carried := Function.update (Function.update d.carried source (some none)) target (d.carried source) }

/-- A piece is written to the stream of a name. -/
def write (name : String) (d : Desk) (p : Piece) : Desk :=
  { d with
    written := d.written + 1
    drafts := match (d.carried name).join with
      | some i => d.drafts.modify i fun x => x.add d.written p
      | none => d.drafts }

def serve (d : Desk) : Request → Desk
  | .setLevel level => { d with threshold := level }
  | .openStream name level active tail =>
    (d.close name).begin name ⟨level, tail, active && level.passes d.threshold, []⟩
  | .write name pieces => if (d.carried name).isSome then pieces.foldl (write name) d else d
  | .moveNew source target =>
    if (d.carried source).isSome ∧ source ≠ target then (d.close target).handOver source target else d
  | .moveInto source target =>
    if (d.carried source).isSome ∧ (d.carried target).isSome ∧ source ≠ target then
      (d.giveUp target).handOver source target
    else d
  | .close name => d.close name
  | _ => d

def serveAll (d : Desk) (requests : List Request) : Desk := requests.foldl serve d

theorem carried_close (d : Desk) (name other : String) :
    (d.close name).carried other = if other = name then none else d.carried other :=
  Function.update_apply ..

theorem carried_giveUp (d : Desk) (name other : String) :
    (d.giveUp name).carried other = if other = name then some none else d.carried other :=
  Function.update_apply ..

theorem carried_begin (d : Desk) (name : String) (x : Draft) (other : String) :
    (d.begin name x).carried other = if other = name then some (some d.drafts.length) else d.carried other :=
  Function.update_apply ..

theorem carried_handOver (d : Desk) (source target other : String) :
    (d.handOver source target).carried other =
      if other = target then d.carried source else if other = source then some none else d.carried other := by
  simp only [handOver, Function.update_apply]

theorem drafts_write (d : Desk) (name : String) (p : Piece) (i : Nat) :
    (d.write name p).drafts[i]? =
      if (d.carried name).join = some i then d.drafts[i]?.map fun x => x.add d.written p
      else d.drafts[i]? := by
  unfold write
  dsimp only
  split
  · rename_i j hj
    rw [List.getElem?_modify, hj]
    by_cases hij : j = i <;> simp [hij]
  · rename_i hnone
    rw [hnone, if_neg (fun h => nomatch h)]

theorem length_write (d : Desk) (name : String) (p : Piece) :
    (d.write name p).drafts.length = d.drafts.length := by
  unfold write
  dsimp only
  split
  · exact List.length_modify ..
  · rfl

theorem length_writes (d : Desk) (name : String) (pieces : List Piece) :
    (pieces.foldl (write name) d).drafts.length = d.drafts.length := by
  induction pieces generalizing d with
  | nil => rfl
  | cons p pieces ih => exact (ih (d.write name p)).trans (length_write d name p)

/-- Nothing but opening a stream begins a draft. -/
theorem length_serve (d : Desk) (r : Request) :
    (d.serve r).drafts.length = d.drafts.length + if r.opens then 1 else 0 := by
  cases r with
  | openStream => exact List.length_append
  | write name pieces =>
    simp only [serve]
    split
    · exact length_writes d name pieces
    · rfl
  | moveNew | moveInto =>
    simp only [serve]
    split <;> rfl
  | setLevel | isEnabled | log | print | install | sink | close => rfl

theorem length_serveAll (d : Desk) (requests : List Request) :
    (d.serveAll requests).drafts.length = d.drafts.length + requests.countP Request.opens := by
  induction requests generalizing d with
  | nil => rfl
  | cons r requests ih =>
    refine (ih (d.serve r)).trans ?_
    rw [length_serve, List.countP_cons]
    omega

/-- The message that a draft is in the end. -/
def message? (d : Desk) (i : Nat) : Option (Level × String) := d.drafts[i]?.bind Draft.message?

/-- The numbers of the pieces of a draft. -/
def numbers (d : Desk) (i : Nat) : List Nat := (d.drafts[i]?.map Draft.numbers).getD []

variable {d d' : Desk}

/-! ## Where a draft is -/

/-- Where a draft may be: with the stream of a name, or among those that have ended or were given up. -/
inductive Place where
  | stream (name : String)
  | ended (k : Nat)
  | givenUp (k : Nat)
  deriving DecidableEq

/-- The draft at a place. -/
def at? (d : Desk) : Place → Option Nat
  | .stream name => (d.carried name).join
  | .ended k => d.ended[k]?
  | .givenUp k => d.givenUp[k]?

/-- Every draft is at one place and at no other one. -/
structure Housed (d : Desk) : Prop where
  somewhere : ∀ i, i < d.drafts.length ↔ ∃ p, d.at? p = some i
  once : ∀ {i p q}, d.at? p = some i → d.at? q = some i → p = q

theorem housed_start (threshold : Level) : Housed { threshold := threshold } := by
  have hnowhere : ∀ p, at? { threshold := threshold } p = none := fun p => by cases p <;> simp [at?]
  constructor
  · simp [hnowhere]
  · intro i p q hp
    rw [hnowhere] at hp
    cases hp

/-- A draft is taken from one place to another one that was free. -/
theorem Housed.relocate (h : Housed d) (source target : Place) (hfree : d.at? target = none)
    (hlength : d'.drafts.length = d.drafts.length)
    (hat : ∀ p, d'.at? p = if p = target then d.at? source else if p = source then none else d.at? p) :
    Housed d' := by
  constructor
  · intro i
    rw [hlength, h.somewhere]
    constructor
    · rintro ⟨p, hp⟩
      by_cases hsource : p = source
      · exact ⟨target, by rw [hat, if_pos rfl, ← hsource, hp]⟩
      · have htarget : p ≠ target := fun he => by rw [he, hfree] at hp; cases hp
        exact ⟨p, by rw [hat, if_neg htarget, if_neg hsource, hp]⟩
    · rintro ⟨p, hp⟩
      rw [hat] at hp
      split at hp
      · exact ⟨source, hp⟩
      · split at hp
        · cases hp
        · exact ⟨p, hp⟩
  · intro i p q hp hq
    rw [hat] at hp hq
    have hold := @Housed.once _ h i
    grind

/-- Nothing is moved. -/
theorem Housed.congr (h : Housed d) (hlength : d'.drafts.length = d.drafts.length)
    (hat : ∀ p, d'.at? p = d.at? p) : Housed d' :=
  ⟨fun i => by simp only [hlength, hat, h.somewhere], fun hp hq => h.once (hat _ ▸ hp) (hat _ ▸ hq)⟩

theorem getElem?_append_toList (l : List Nat) (o : Option Nat) (k : Nat) :
    (l ++ o.toList)[k]? = if k = l.length then o else l[k]? := by
  by_cases hk : k < l.length
  · rw [List.getElem?_append_left hk, if_neg (Nat.ne_of_lt hk)]
  · rw [List.getElem?_append_right (by omega), List.getElem?_eq_none (l := l) (by omega)]
    cases o <;> grind

theorem Housed.close (h : Housed d) (name : String) : Housed (d.close name) := by
  refine h.relocate (.stream name) (.ended d.ended.length) (by simp [at?]) rfl fun p => ?_
  cases p with
  | stream other => by_cases ho : other = name <;> simp [at?, Desk.close, ho]
  | ended k => simp [at?, Desk.close, getElem?_append_toList]
  | givenUp k => simp [at?, Desk.close]

theorem Housed.giveUp (h : Housed d) (name : String) : Housed (d.giveUp name) := by
  refine h.relocate (.stream name) (.givenUp d.givenUp.length) (by simp [at?]) rfl
    fun p => ?_
  cases p with
  | stream other => by_cases ho : other = name <;> simp [at?, Desk.giveUp, ho]
  | ended k => simp [at?, Desk.giveUp]
  | givenUp k => simp [at?, Desk.giveUp, getElem?_append_toList]

theorem Housed.handOver (h : Housed d) {source target : String} (hne : source ≠ target)
    (hfree : (d.carried target).join = none) : Housed (d.handOver source target) := by
  refine h.relocate (.stream source) (.stream target) hfree rfl fun p => ?_
  cases p with
  | stream other =>
    by_cases ht : other = target
    · simp [at?, Desk.handOver, ht]
    · by_cases hs : other = source <;> simp [at?, Desk.handOver, ht, hs, hne]
  | ended k => simp [at?, Desk.handOver]
  | givenUp k => simp [at?, Desk.handOver]

theorem Housed.begin (h : Housed d) {name : String} (hfree : (d.carried name).join = none) (x : Draft) :
    Housed (d.begin name x) := by
  have hat : ∀ p, (d.begin name x).at? p = if p = .stream name then some d.drafts.length else d.at? p := by
    intro p
    cases p with
    | stream other => by_cases ho : other = name <;> simp [at?, Desk.begin, ho]
    | ended k => simp [at?, Desk.begin]
    | givenUp k => simp [at?, Desk.begin]
  -- the new number is none of those that are somewhere already
  have hnew : d.at? (.stream name) = none := hfree
  have hlt : ∀ p i, d.at? p = some i → i < d.drafts.length := fun p i hp => (h.somewhere i).2 ⟨p, hp⟩
  constructor
  · intro i
    have hlength : (d.begin name x).drafts.length = d.drafts.length + 1 := by simp [Desk.begin]
    rw [hlength, Nat.lt_succ_iff_lt_or_eq, h.somewhere]
    constructor
    · rintro (⟨p, hp⟩ | rfl)
      · have hne : p ≠ .stream name := fun he => by rw [he, hnew] at hp; cases hp
        exact ⟨p, by rw [hat, if_neg hne, hp]⟩
      · exact ⟨.stream name, by rw [hat, if_pos rfl]⟩
    · rintro ⟨p, hp⟩
      rw [hat] at hp
      split at hp
      · exact .inr (Option.some.inj hp).symm
      · exact .inl ⟨p, hp⟩
  · intro i p q hp hq
    rw [hat] at hp hq
    have hold := @Housed.once _ h i
    grind

theorem Housed.write (h : Housed d) (name : String) (p : Piece) : Housed (d.write name p) :=
  h.congr (length_write d name p) fun q => by cases q <;> rfl

theorem Housed.writes (h : Housed d) (name : String) (pieces : List Piece) :
    Housed (pieces.foldl (Desk.write name) d) :=
  List.foldlRecOn pieces _ h fun _ h p _ => h.write name p

theorem Housed.serve (h : Housed d) (r : Request) : Housed (d.serve r) := by
  cases r with
  | openStream name => exact (h.close name).begin (by simp [Desk.close]) _
  | write name pieces =>
    simp only [Desk.serve]
    split
    · exact h.writes name pieces
    · exact h
  | moveNew source target =>
    simp only [Desk.serve]
    split
    · rename_i hmove
      exact (h.close target).handOver hmove.2 (by simp [Desk.close])
    · exact h
  | moveInto source target =>
    simp only [Desk.serve]
    split
    · rename_i hmove
      exact (h.giveUp target).handOver hmove.2.2 (by simp [Desk.giveUp])
    · exact h
  | close name => exact h.close name
  | setLevel => exact h.congr rfl fun p => by cases p <;> rfl
  | isEnabled | log | print | install | sink => exact h

theorem housed_run (threshold : Level) (requests : List Request) :
    Housed (serveAll { threshold := threshold } requests) :=
  List.foldlRecOn requests serve (housed_start threshold) fun _ h r _ => h.serve r

/-- No draft ends twice. -/
theorem Housed.nodup_ended (h : Housed d) : d.ended.Nodup := by
  refine List.nodup_iff_getElem?_ne_getElem?.2 fun j k hjk hk heq => ?_
  have hsame := h.once (p := .ended j) (q := .ended k) (heq.trans (List.getElem?_eq_getElem hk))
    (List.getElem?_eq_getElem hk)
  grind

/-! ## What is handed over -/

/-- The messages of the drafts that have ended, in order. -/
def handed (d : Desk) : List (Level × String) := d.ended.filterMap d.message?

theorem handed_close (d : Desk) (name : String) :
    (d.close name).handed = d.handed ++ ((d.carried name).join.bind d.message?).toList := by
  have hended : (d.close name).ended = d.ended ++ (d.carried name).join.toList := rfl
  have hmessage : (d.close name).message? = d.message? := rfl
  rw [handed, hended, hmessage, List.filterMap_append]
  cases (d.carried name).join with
  | none => rfl
  | some i => cases h : d.message? i <;> simp [handed, h]

/-- What has ended stays as it is while something else is done. -/
theorem handed_congr (hended : d'.ended = d.ended) (hdrafts : ∀ i ∈ d.ended, d'.drafts[i]? = d.drafts[i]?) :
    d'.handed = d.handed := by
  rw [handed, hended]
  exact List.filterMap_congr fun i hi => by rw [message?, hdrafts i hi, message?]

theorem exists_at?_of_mem_ended {i : Nat} (hi : i ∈ d.ended) : ∃ k, d.at? (.ended k) = some i :=
  List.mem_iff_getElem?.1 hi

theorem handed_begin (h : Housed d) (name : String) (x : Draft) : (d.begin name x).handed = d.handed := by
  refine handed_congr rfl fun i hi => ?_
  obtain ⟨k, hk⟩ := exists_at?_of_mem_ended hi
  exact List.getElem?_append_left ((h.somewhere i).2 ⟨_, hk⟩)

theorem handed_write (h : Housed d) (name : String) (p : Piece) : (d.write name p).handed = d.handed := by
  refine handed_congr rfl fun i hi => ?_
  obtain ⟨k, hk⟩ := exists_at?_of_mem_ended hi
  rw [drafts_write, if_neg]
  intro hcarried
  have hplaces := h.once (p := .stream name) (q := .ended k) hcarried hk
  cases hplaces

theorem handed_writes (h : Housed d) (name : String) (pieces : List Piece) :
    (pieces.foldl (Desk.write name) d).handed = d.handed := by
  induction pieces generalizing d with
  | nil => rfl
  | cons p pieces ih => exact (ih (h.write name p)).trans (handed_write h name p)

/-! ## Where a piece is -/

/-- Every piece is in one draft at most, and once. -/
structure Numbered (d : Desk) : Prop where
  written : ∀ {i n}, n ∈ d.numbers i → n < d.written
  once : ∀ {i j n}, n ∈ d.numbers i → n ∈ d.numbers j → i = j
  nodup : ∀ i, (d.numbers i).Nodup

theorem numbered_start (threshold : Level) : Numbered { threshold := threshold } := by
  constructor <;> simp [numbers]

theorem Numbered.congr (h : Numbered d) (hwritten : d'.written = d.written)
    (hnumbers : ∀ i, d'.numbers i = d.numbers i) : Numbered d' :=
  ⟨fun {i} => by rw [hwritten, hnumbers]; exact h.written,
    fun {i j} => by rw [hnumbers, hnumbers]; exact h.once, fun i => hnumbers i ▸ h.nodup i⟩

theorem numbers_begin (d : Desk) (name : String) {x : Draft} (hx : x.pieces = []) (i : Nat) :
    (d.begin name x).numbers i = d.numbers i := by
  rcases Nat.lt_trichotomy i d.drafts.length with hi | rfl | hi
  · simp [numbers, Desk.begin, List.getElem?_append_left hi]
  · simp [numbers, Desk.begin, Draft.numbers, hx]
  · have hlength : i ≠ d.drafts.length := Nat.ne_of_gt hi
    simp only [numbers, Desk.begin]
    rw [List.getElem?_eq_none (by simp; omega), List.getElem?_eq_none (by omega)]

theorem numbers_write (d : Desk) (name : String) (p : Piece) (i : Nat) :
    (d.write name p).numbers i =
      if (d.carried name).join = some i ∧ i < d.drafts.length then d.numbers i ++ [d.written]
      else d.numbers i := by
  simp only [numbers, drafts_write]
  by_cases hi : i < d.drafts.length
  · by_cases hc : (d.carried name).join = some i <;> simp [hi, hc, Draft.add, Draft.numbers]
  · simp [hi]

theorem Numbered.write (h : Numbered d) (name : String) (p : Piece) : Numbered (d.write name p) := by
  -- the number of the piece is greater than those of all others
  have hmem : ∀ i n, n ∈ (d.write name p).numbers i ↔
      n ∈ d.numbers i ∨ (n = d.written ∧ (d.carried name).join = some i ∧ i < d.drafts.length) := by
    intro i n
    rw [numbers_write]
    split <;> grind
  constructor
  · intro i n hn
    change n < d.written + 1
    rcases (hmem i n).1 hn with hn | ⟨rfl, -⟩
    · exact Nat.lt_succ_of_lt (h.written hn)
    · exact Nat.lt_succ_self _
  · intro i j n hi hj
    rcases (hmem i n).1 hi with hi | ⟨rfl, hi, -⟩ <;> rcases (hmem j _).1 hj with hj | ⟨hn, hj, -⟩
    · exact h.once hi hj
    · exact absurd (h.written hi) (by omega)
    · exact absurd (h.written hj) (Nat.lt_irrefl _)
    · exact Option.some.inj (hi.symm.trans hj)
  · intro i
    rw [numbers_write]
    split
    · exact List.nodup_append.2 ⟨h.nodup i, by simp, fun n hn m hm => by
        have := h.written hn
        simp at hm
        omega⟩
    · exact h.nodup i

theorem Numbered.writes (h : Numbered d) (name : String) (pieces : List Piece) :
    Numbered (pieces.foldl (Desk.write name) d) :=
  List.foldlRecOn pieces _ h fun _ h p _ => h.write name p

theorem Numbered.serve (h : Numbered d) (r : Request) : Numbered (d.serve r) := by
  cases r with
  | openStream name =>
    have hclosed : Numbered (d.close name) := h.congr rfl fun _ => rfl
    exact hclosed.congr rfl (numbers_begin _ name rfl)
  | write name pieces =>
    simp only [Desk.serve]
    split
    · exact h.writes name pieces
    · exact h
  | moveNew | moveInto =>
    simp only [Desk.serve]
    split
    · exact h.congr rfl fun _ => rfl
    · exact h
  | setLevel | close => exact h.congr rfl fun _ => rfl
  | isEnabled | log | print | install | sink => exact h

theorem numbered_run (threshold : Level) (requests : List Request) :
    Numbered (serveAll { threshold := threshold } requests) :=
  List.foldlRecOn requests serve (numbered_start threshold) fun _ h r _ => h.serve r

/-- The drafts of a list without repetitions have no piece in common, and none twice. -/
theorem Numbered.nodup_flatMap (h : Numbered d) {drafts : List Nat} (hdrafts : drafts.Nodup) :
    (drafts.flatMap d.numbers).Nodup := by
  refine List.nodup_flatMap.2 ⟨fun i _ => h.nodup i, hdrafts.imp fun hij => ?_⟩
  exact List.disjoint_left.2 fun n hi hj => hij (h.once hi hj)

/-! ## Streams that carry nothing -/

theorem carried_writes (d : Desk) (name : String) (pieces : List Piece) :
    (pieces.foldl (Desk.write name) d).carried = d.carried := by
  induction pieces generalizing d with
  | nil => rfl
  | cons p pieces ih => exact ih (d.write name p)

/-- A stream that carries nothing does so until it is filled. -/
theorem empty_serve {name : String} {r : Request} (h : (d.carried name).join = none)
    (hr : r.fills name = false) : ((d.serve r).carried name).join = none := by
  cases r with
  | openStream other =>
    have hne : name ≠ other := Ne.symm (beq_eq_false_iff_ne.1 hr)
    simp only [serve, carried_begin, carried_close, if_neg hne, h]
  | write other pieces =>
    simp only [serve]
    split
    · rw [carried_writes, h]
    · exact h
  | moveNew source target =>
    have hne : name ≠ target := Ne.symm (beq_eq_false_iff_ne.1 hr)
    simp only [serve]
    split
    · simp only [carried_handOver, carried_close, if_neg hne]
      split
      · rfl
      · exact h
    · exact h
  | moveInto source target =>
    have hne : name ≠ target := Ne.symm (beq_eq_false_iff_ne.1 hr)
    simp only [serve]
    split
    · simp only [carried_handOver, carried_giveUp, if_neg hne]
      split
      · rfl
      · exact h
    · exact h
  | close other =>
    simp only [serve, carried_close]
    split
    · rfl
    · exact h
  | setLevel | isEnabled | log | print | install | sink => exact h

theorem empty_serveAll {name : String} {requests : List Request} (h : (d.carried name).join = none)
    (hrequests : ∀ r ∈ requests, r.fills name = false) :
    ((d.serveAll requests).carried name).join = none := by
  induction requests generalizing d with
  | nil => exact h
  | cons r requests ih =>
    obtain ⟨hr, hrequests⟩ := List.forall_mem_cons.1 hrequests
    exact ih (empty_serve h hr) hrequests

theorem empty_handOver {source target : String} (hne : source ≠ target) :
    ((d.handOver source target).carried source).join = none := by
  rw [carried_handOver, if_neg hne, if_pos rfl]
  rfl

end Desk

end FanIn.Log
