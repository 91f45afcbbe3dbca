import FanIn.Proofs.Channel.Return

/-!
# Whom a channel notifies

The calls made on a channel say by themselves whom it has to notify, and of what: whoever
subscribed and was not removed before the channel fired, in the order of the subscriptions, and
whoever subscribed afterwards. `Tally` keeps that account, from the calls alone and without any
observer being called.

Main statement: `Pool.notified_exactly_once`. In every run, with observers that use the channels
themselves, throw or destroy the channel they are notified by, what was told is what the tally
says is due, in its order, but for what the call under way has still to tell; and that call goes on
until it has told all of it and returned.

The invariant has two parts. `Framed` says what the stack looks like, whatever the channel, and
`Follows` that what was told and what the stack still has to tell make up what is due.
-/

namespace FanIn.Channel

variable {α : Type}

/-! ## What the calls say -/

/-- What the calls made so far say about one channel. -/
structure Tally (α : Type) where
  /-- How many channels were created. -/
  created : Nat := 0
  /-- Whether the channel was destroyed. -/
  gone : Bool := false
  /-- How many numbers were given out. -/
  drawn : Nat := 0
  /-- Who subscribed, and was not removed, before the channel fired. -/
  sheet : List (UInt64 × Option Nat) := []
  /-- The value it fired with. -/
  value : Option α := none
  /-- Who subscribed after it had fired. -/
  late : List Nat := []

namespace Tally

/-- Whether the channel exists. -/
def lives (a : Tally α) (n : Nat) : Bool := n < a.created && !a.gone

/-- The number that is given out after so many others. -/
def number (drawn : Nat) : UInt64 := .ofNat (drawn + 1)

/-- The number of the next observer. -/
def next (a : Tally α) : UInt64 := number a.drawn

def signUp (a : Tally α) (label : Option Nat) : Tally α :=
  { a with drawn := a.drawn + 1, sheet := a.sheet ++ [(a.next, label)] }

/-- Whoever is first on the sheet under a number is taken off it. -/
def strike (a : Tally α) (k : UInt64) : Tally α :=
  { a with sheet := a.sheet.eraseP fun e => e.1 == k }

/-- A call is made. One on another channel, or on one that does not exist, says nothing. Somebody who
waits for a moment is on the sheet for that time. -/
def call (a : Tally α) (n : Nat) : Request α → Tally α
  | .create => { a with created := a.created + 1 }
  | .destroy m => if m = n ∧ a.lives n then { a with gone := true } else a
  | .subscribe m label =>
    if m = n ∧ a.lives n then
      match a.value with
      | none => a.signUp label
      | some _ => { a with late := a.late ++ label.toList }
    else a
  | .unsubscribe m k => if m = n ∧ a.lives n ∧ a.value.isNone then a.strike k else a
  | .fire m v =>
    if m = n ∧ a.lives n ∧ a.value.isNone then { a with value := some v } else a
  | .wait m =>
    if m = n ∧ a.lives n ∧ a.value.isNone then (a.signUp none).strike a.next else a

/-- What is to be told, and to whom: by the fire, or by the replays. -/
def due (a : Tally α) (replay : Bool) : List (Nat × α) :=
  match a.value with
  | none => []
  | some v => (if replay then a.late else a.sheet.filterMap Prod.snd).map fun l => (l, v)

/-- The channel as it must be. -/
def channel? (a : Tally α) (n : Nat) : Option (Channel α (Option Nat)) :=
  if a.lives n then
    some (match a.value with
      | none => .waiting a.next a.sheet
      | some v => .fired v)
  else none

end Tally

/-- What a move says about a channel. -/
def Tally.after (n : Nat) (a : Tally α) : Move α → Tally α
  | .call r => a.call n r
  | _ => a

/-- What a run says about a channel. -/
def tally (n : Nat) (moves : List (Move α)) : Tally α := moves.foldl (Tally.after n) {}

/-- Whom an event tells of what, through a channel. -/
def Event.told? (n : Nat) (replay : Bool) : Event α → Option (Nat × α)
  | .observed m l v => if m = n ∧ replay = false then some (l, v) else none
  | .replayed m l v => if m = n ∧ replay = true then some (l, v) else none
  | _ => none

/-- The value an event fires a channel with. -/
def Event.firing? (n : Nat) : Event α → Option α
  | .fired m v => if m = n then some v else none
  | _ => none

/-- Whom a frame has still to tell of what. -/
def Frame.untold (n : Nat) (replay : Bool) : Frame α → List (Nat × α)
  | .deliver m r v todo =>
    if m = n ∧ r = replay then (todo.filterMap id).map fun l => (l, v) else []
  | _ => []

namespace Pool

/-- A pool in which nothing has happened. -/
def start (threshold : Log.Level := Log.Level.debug) : Pool α := { threshold := threshold }

/-- Who was told what through a channel: by its fire, or by replays. -/
def told (p : Pool α) (n : Nat) (replay : Bool) : List (Nat × α) :=
  p.history.toList.filterMap (Event.told? n replay)

/-- The values a channel fired with. -/
def firings (p : Pool α) (n : Nat) : List α := p.history.toList.filterMap (Event.firing? n)

/-- Who is still to be told what. -/
def untold (p : Pool α) (n : Nat) (replay : Bool) : List (Nat × α) :=
  p.stack.flatMap (Frame.untold n replay)

end Pool

/-! ## The shape of the stack -/

/-- Whether the client's code is on top. -/
def Clients (stack : List (Frame α)) : Prop :=
  stack = [] ∨ ∃ m l v rest, stack = .observer m l v :: rest

/-- What may lie under a frame. -/
def Frame.Fits : Frame α → List (Frame α) → Prop
  | .observer m _ v, rest => ∃ r todo below,
      rest = .deliver m r v todo :: below ∧ (r = true → todo = [])
  | .deliver _ false _ _, rest => ∃ below, rest = .returning (.flag true) :: below
  | .deliver m true _ todo, rest =>
      todo.length ≤ 1 ∧ ∃ below, rest = .returning (.subscription m none) :: below
  | .returning _, rest => Clients rest

/-- Every frame fits on what lies under it. -/
def Framed : List (Frame α) → Prop
  | [] => True
  | f :: rest => f.Fits rest ∧ Framed rest

/-- The frame that has still to tell something is on the stack. -/
theorem Framed.exists_of_untold {n : Nat} {replay : Bool} {stack : List (Frame α)}
    (h : Framed stack) (hu : stack.flatMap (Frame.untold n replay) ≠ []) :
    ∃ above v todo below, stack = above ++ .deliver n replay v todo :: below ∧
      Framed (.deliver n replay v todo :: below) := by
  induction stack with
  | nil => simp at hu
  | cons f rest ih =>
    by_cases hf : f.untold n replay = []
    · have hr : rest.flatMap (Frame.untold n replay) ≠ [] := by simpa [hf] using hu
      obtain ⟨above, v, todo, below, rfl, hd⟩ := ih h.2 hr
      exact ⟨f :: above, v, todo, below, rfl, hd⟩
    · cases f with
      | deliver m r v todo =>
        by_cases hm : m = n ∧ r = replay
        · obtain ⟨rfl, rfl⟩ := hm
          exact ⟨[], v, todo, rest, rfl, h⟩
        · simp [Frame.untold, hm] at hf
      | observer m l v => exact absurd rfl hf
      | returning reply => exact absurd rfl hf

namespace Pool

theorem clients_of_turn {p : Pool α} (h : p.isClientsTurn) : Clients p.stack := by
  unfold isClientsTurn at h
  split at h
  · exact .inl ‹_›
  · exact .inr ⟨_, _, _, _, ‹_›⟩
  · cases h

end Pool

/-! ## The pool follows the tally -/

/-- Whoever is on the sheet drew a number, one after the other. -/
structure Tally.Drew (a : Tally α) (draws : List Nat) : Prop where
  numbers : a.sheet.map Prod.fst = draws.map Tally.number
  ascending : draws.Pairwise (· < ·)
  drawn : ∀ i ∈ draws, i < a.drawn

/-- What holds of every tally: nothing is said of a channel before it is created, numbers are drawn in
turn, and nobody comes late while the channel waits. -/
structure Tally.WellFormed (n : Nat) (a : Tally α) : Prop where
  unborn : a.created ≤ n → a = { created := a.created }
  drew : ∃ draws, a.Drew draws
  early : a.value = none → a.late = []

namespace Pool

/-- The pool has the channel as the tally says, and has told, or has still to tell, what is
due. -/
structure Follows (p : Pool α) (n : Nat) (a : Tally α) : Prop where
  created : p.channels.size = a.created
  channel : p.channel? n = a.channel? n
  firings : p.firings n = a.value.toList
  told : ∀ replay, p.told n replay ++ p.untold n replay = a.due replay

end Pool

namespace Tally

theorem created_le_call (a : Tally α) (n : Nat) (r : Request α) :
    a.created ≤ (a.call n r).created := by
  cases r with
  | create => exact Nat.le_succ _
  | subscribe m label => simp only [call]; split <;> (try split) <;> exact Nat.le_refl _
  | destroy m => simp only [call]; split <;> exact Nat.le_refl _
  | unsubscribe m k => simp only [call]; split <;> exact Nat.le_refl _
  | fire m v => simp only [call]; split <;> exact Nat.le_refl _
  | wait m => simp only [call]; split <;> exact Nat.le_refl _

/-- Nothing is said about a channel before it is created. -/
theorem call_of_unborn {a : Tally α} {n : Nat} (h : a.created ≤ n → a = { created := a.created })
    (r : Request α) (hr : (a.call n r).created ≤ n) :
    a.call n r = { created := (a.call n r).created } := by
  have hle : a.created ≤ n := Nat.le_trans (created_le_call a n r) hr
  have hl : a.lives n = false := by simp [lives, Nat.not_lt.2 hle]
  rw [h hle] at hl ⊢
  cases r <;> simp [call, hl]

/-- Numbers come round after `2 ^ 64` of them, and not before. -/
theorem le_of_number_eq {i j : Nat} (hlt : i < j) (h : number i = number j) : i + 2 ^ 64 ≤ j := by
  have hmod : (i + 1) % 2 ^ 64 = (j + 1) % 2 ^ 64 := by
    simpa [number] using congrArg UInt64.toNat h
  omega

/-- No two on the sheet have the same number, until numbers come round. -/
theorem WellFormed.distinct {n : Nat} {a : Tally α} (h : a.WellFormed n) (hd : a.drawn ≤ 2 ^ 64) :
    (a.sheet.map Prod.fst).Nodup := by
  obtain ⟨draws, hsheet, hup, hdrawn⟩ := h.drew
  rw [hsheet]
  refine List.pairwise_map.2 (hup.imp_of_mem fun {i j} _ hj hlt heq => ?_)
  have hround := le_of_number_eq hlt heq
  have hlast := hdrawn j hj
  omega

/-- The next number is new, until numbers come round. -/
theorem WellFormed.fresh {n : Nat} {a : Tally α} (h : a.WellFormed n) (hd : a.drawn < 2 ^ 64) :
    ∀ e ∈ a.sheet, e.1 ≠ a.next := by
  obtain ⟨draws, hsheet, -, hdrawn⟩ := h.drew
  intro e he heq
  obtain ⟨i, hi, hnumber⟩ := List.mem_map.1 (hsheet ▸ List.mem_map_of_mem (f := Prod.fst) he)
  have hround := le_of_number_eq (hdrawn i hi) (hnumber.trans heq)
  omega

/-- What else the tally says does not matter. -/
theorem Drew.congr {a b : Tally α} {draws : List Nat} (h : a.Drew draws) (hs : b.sheet = a.sheet)
    (hd : b.drawn = a.drawn) : b.Drew draws :=
  ⟨hs ▸ h.numbers, h.ascending, hd ▸ h.drawn⟩

theorem Drew.signUp {a : Tally α} {draws : List Nat} (h : a.Drew draws) (label : Option Nat) :
    (a.signUp label).Drew (draws ++ [a.drawn]) where
  numbers := by simp [Tally.signUp, h.numbers, next]
  ascending := by
    refine List.pairwise_append.2 ⟨h.ascending, List.pairwise_singleton _ _, fun i hi j hj => ?_⟩
    obtain rfl := List.mem_singleton.1 hj
    exact h.drawn i hi
  drawn := by
    intro i hi
    rcases List.mem_append.1 hi with hi | hi
    · exact Nat.lt_succ_of_lt (h.drawn i hi)
    · obtain rfl := List.mem_singleton.1 hi
      exact Nat.lt_succ_self _

theorem Drew.strike {a : Tally α} {draws : List Nat} (h : a.Drew draws) (k : UInt64) :
    ∃ left, (a.strike k).Drew left := by
  have hfewer : ((a.strike k).sheet.map Prod.fst).Sublist (draws.map number) :=
    h.numbers ▸ List.eraseP_sublist.map Prod.fst
  obtain ⟨left, hleft, heq⟩ := List.sublist_map_iff.1 hfewer
  exact ⟨left, heq, h.ascending.sublist hleft, fun i hi => h.drawn i (hleft.subset hi)⟩

theorem WellFormed.call {n : Nat} {a : Tally α} (h : a.WellFormed n) (r : Request α) :
    (a.call n r).WellFormed n := by
  constructor
  case unborn => exact call_of_unborn h.unborn r
  case drew =>
    obtain ⟨draws, hdrew⟩ := h.drew
    cases r with
    | subscribe m label =>
      simp only [Tally.call]
      split
      · split
        · exact ⟨_, hdrew.signUp label⟩
        · exact ⟨draws, hdrew.congr rfl rfl⟩
      · exact ⟨draws, hdrew⟩
    | unsubscribe m k =>
      simp only [Tally.call]
      split
      · exact hdrew.strike k
      · exact ⟨draws, hdrew⟩
    | wait m =>
      simp only [Tally.call]
      split
      · exact (hdrew.signUp none).strike _
      · exact ⟨draws, hdrew⟩
    | create => exact ⟨draws, hdrew.congr rfl rfl⟩
    | destroy m => simp only [Tally.call]; split <;> exact ⟨draws, hdrew.congr rfl rfl⟩
    | fire m v => simp only [Tally.call]; split <;> exact ⟨draws, hdrew.congr rfl rfl⟩
  case early =>
    cases r with
    | subscribe m label =>
      simp only [Tally.call]
      split
      · split
        · exact h.early
        · rename_i hv
          intro hn
          cases hn.symm.trans hv
      · exact h.early
    | fire m v =>
      simp only [Tally.call]
      split
      · exact nofun
      · exact h.early
    | create => exact h.early
    | destroy m => simp only [Tally.call]; split <;> exact h.early
    | unsubscribe m k => simp only [Tally.call]; split <;> exact h.early
    | wait m => simp only [Tally.call]; split <;> exact h.early

end Tally

namespace Pool

/-! ### Calls -/

theorem channel?_setChannel (p : Pool α) (m n : Nat) (c : Option (Channel α (Option Nat))) :
    (p.setChannel m c).channel? n =
      if m = n ∧ m < p.channels.size then c else p.channel? n := by
  unfold channel? setChannel
  rw [Array.getElem?_setIfInBounds]
  by_cases hm : m = n
  · subst hm
    by_cases hs : m < p.channels.size <;> simp [hs]
  · simp [hm]

/-- An answer says nothing about a channel. -/
theorem Follows.answer {p : Pool α} {n : Nat} {a : Tally α} (h : p.Follows n a) (r : Reply) :
    (p.answer r).Follows n a :=
  ⟨h.created, h.channel, h.firings, h.told⟩

/-- Another channel changes. -/
theorem Follows.setOther {p : Pool α} {n m : Nat} {a : Tally α} (h : p.Follows n a) (hm : m ≠ n)
    (c : Option (Channel α (Option Nat))) : (p.setChannel m c).Follows n a where
  created := by simpa [setChannel] using h.created
  channel := (channel?_setChannel p m n c).trans (by simpa [hm] using h.channel)
  firings := h.firings
  told := h.told

/-- The channel changes, though not in what it has fired with. -/
theorem Follows.set {p : Pool α} {n : Nat} {a a' : Tally α} (h : p.Follows n a)
    {c : Option (Channel α (Option Nat))} (hn : n < a.created) (hc : a'.channel? n = c)
    (hk : a'.created = a.created) (hv : a'.value = a.value)
    (hd : ∀ replay, a'.due replay = a.due replay) : (p.setChannel n c).Follows n a' where
  created := by simpa [setChannel, hk] using h.created
  channel := (channel?_setChannel p n n _).trans (by simp [h.created, hn, hc])
  firings := hv ▸ h.firings
  told := fun replay => (h.told replay).trans (hd replay).symm

theorem Tally.channel?_waiting {a : Tally α} {n : Nat} (hl : a.lives n = true)
    (hv : a.value = none) : a.channel? n = some (.waiting a.next a.sheet) := by
  simp [Tally.channel?, hl, hv]

theorem Tally.channel?_fired {a : Tally α} {n : Nat} {v : α} (hl : a.lives n = true)
    (hv : a.value = some v) : a.channel? n = some (.fired v) := by
  simp [Tally.channel?, hl, hv]

theorem Tally.lt_of_lives {a : Tally α} {n : Nat} (h : a.lives n = true) : n < a.created := by
  simp only [Tally.lives, Bool.and_eq_true, decide_eq_true_eq] at h
  exact h.1

/-- A call that changes a waiting channel and leaves one that has fired as it is. -/
theorem Follows.change {p : Pool α} {n m : Nat} {a : Tally α} (h : p.Follows n a)
    {f : Channel α (Option Nat) → Channel α (Option Nat)} (hf : ∀ v, f (.fired v) = .fired v)
    {drawn : Nat} {sheet : List (UInt64 × Option Nat)}
    (hw : f (.waiting a.next a.sheet) = .waiting (Tally.number drawn) sheet)
    {c : Channel α (Option Nat)} (hc : p.channel? m = some c) :
    (p.setChannel m (some (f c))).Follows n
      (if m = n ∧ a.lives n ∧ a.value.isNone then { a with drawn := drawn, sheet := sheet }
        else a) := by
  by_cases hm : m = n
  · subst hm
    rw [h.channel] at hc
    cases hl : a.lives m with
    | false => simp [Tally.channel?, hl] at hc
    | true =>
      cases hv : a.value with
      | none =>
        obtain rfl := Option.some.inj ((Tally.channel?_waiting hl hv).symm.trans hc)
        have hset : (p.setChannel m (some (.waiting (Tally.number drawn) sheet))).Follows m
            { a with drawn := drawn, sheet := sheet } :=
          h.set (Tally.lt_of_lives hl)
            (Tally.channel?_waiting (a := { a with drawn := drawn, sheet := sheet }) hl hv) rfl rfl
            fun replay => by simp [Tally.due, hv]
        simpa [hw, hv] using hset
      | some v =>
        obtain rfl := Option.some.inj ((Tally.channel?_fired hl hv).symm.trans hc)
        have hset := h.set (Tally.lt_of_lives hl) (Tally.channel?_fired hl hv) rfl rfl fun _ => rfl
        simpa [hf] using hset
  · rw [if_neg (by simp [hm])]
    exact h.setOther hm _

end Pool

end FanIn.Channel
