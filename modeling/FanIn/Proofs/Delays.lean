import FanIn.Fuzzer.Session
import FanIn.Machine

/-!
# The delay fuzzer keeps to its controls

A thread passes points while its controls are set and scopes are opened and closed, in any order. What a
point injects depends on words drawn from a generator, of which nothing is known here: whatever they are,
the controls say whether a point may inject a delay, whether it must, and between which bounds the delay
lies.

Main statement: `keeps_to_controls`. What is in force is read off the history, as what was set last. The
arithmetic of a delay is settled for any two bounds, also for a pair that was read in the middle of a
change; and that nothing is divided by zero is said of points whose remainders are refused by zero.
-/

namespace FanIn.Fuzzer

variable {σ : Type}

/-! ## Nothing is divided by zero -/

/-- A remainder, if there is something to divide by. -/
def mod? (a b : UInt64) : Option UInt64 := if b = 0 then none else some (a % b)

/-- Whether a point is chosen, unless that takes a division by zero. -/
def choose? (src : Random.Source σ) (rate : UInt32) (g : σ) : Option (Bool × σ) :=
  if rate ≤ 1 then some (true, g)
  else
    let (draw, g) := src.next g
    (mod? draw rate.toUInt64).map fun r => (r == 0, g)

/-- A delay from a drawn word, unless that takes a division by zero. -/
def delay? (least most : UInt32) (draw : UInt64) : Option UInt32 :=
  let span := if least ≤ most then most - least else 0
  (mod? draw (span.toUInt64 + 1)).map fun r => least + r.toUInt32

/-- The delay of a chosen point, unless that takes a division by zero. -/
def pickDelay? (src : Random.Source σ) (least most : UInt32) (g : σ) : Option (UInt32 × σ) :=
  if least < most then
    let (draw, g) := src.next g
    (delay? least most draw).map fun d => (d, g)
  else some (least, g)

/-- A point passed by a thread, unless that takes a division by zero. -/
def point? (src : Random.Source σ) (c : Controls) (t : Thread σ) :
    Option (Option UInt32 × Controls × Thread σ) :=
  if !c.enabled then some (none, c, t)
  else
    let (c, t) := refresh src c t
    (choose? src c.rate t.generator).bind fun
      | (false, g) => some (none, c, { t with generator := g })
      | (true, g) => (pickDelay? src c.minDelay c.maxDelay g).map fun (d, g) =>
        (some d, { c with injections := c.injections + 1 }, { t with generator := g })

theorem mod?_eq {a b : UInt64} (h : b ≠ 0) : mod? a b = some (a % b) := if_neg h

/-- A span of 32 bits and one more is not zero in 64 bits. -/
theorem toNat_span_add_one (span : UInt32) : (span.toUInt64 + 1).toNat = span.toNat + 1 := by
  have hlt := span.toNat_lt
  have hone : (1 : UInt64).toNat = 1 := rfl
  rw [UInt64.toNat_add, UInt32.toNat_toUInt64, hone, Nat.mod_eq_of_lt (by omega)]

theorem choose?_eq (src : Random.Source σ) (rate : UInt32) (g : σ) :
    choose? src rate g = some (choose src rate g) := by
  unfold choose? choose
  split
  · rfl
  · rename_i hrate
    have hne : rate.toUInt64 ≠ 0 := fun hzero => by
      have hnat := congrArg UInt64.toNat hzero
      rw [UInt32.toNat_toUInt64] at hnat
      exact hrate (UInt32.le_iff_toNat_le.2 (hnat ▸ Nat.zero_le _))
    simp only [mod?_eq hne, Option.map_some]

theorem delay?_eq (least most : UInt32) (draw : UInt64) :
    delay? least most draw = some (delay least most draw) := by
  have hne : ∀ span : UInt32, span.toUInt64 + 1 ≠ 0 := fun span hzero => by
    have hnat := congrArg UInt64.toNat hzero
    rw [toNat_span_add_one] at hnat
    cases hnat
  simp only [delay?, delay, mod?_eq (hne _), Option.map_some]

theorem pickDelay?_eq (src : Random.Source σ) (least most : UInt32) (g : σ) :
    pickDelay? src least most g = some (pickDelay src least most g) := by
  unfold pickDelay? pickDelay
  split
  · simp only [delay?_eq, Option.map_some]
  · rfl

/-- Refusing to divide by zero refuses nothing. -/
theorem point?_eq (src : Random.Source σ) (c : Controls) (t : Thread σ) :
    point? src c t = some (point src c t) := by
  unfold point? point
  split
  · rfl
  · simp only [choose?_eq, Option.bind_some, pickDelay?_eq, Option.map_some]
    generalize refresh src c t = r
    obtain ⟨c', t'⟩ := r
    simp only
    cases choose src c'.rate t'.generator with
    | mk chosen g => cases chosen <;> rfl

/-! ## Delays -/

/-- A delay in numbers. Between bounds in the wrong order there is no room at all. -/
theorem toNat_delay (least most : UInt32) (draw : UInt64) :
    (delay least most draw).toNat =
      least.toNat + draw.toNat % (most.toNat - least.toNat + 1) := by
  have hmost := most.toNat_lt
  have hspan : (if least ≤ most then most - least else 0).toNat = most.toNat - least.toNat := by
    split
    · rename_i hle
      exact UInt32.toNat_sub_of_le _ _ hle
    · rename_i hle
      have hlt := UInt32.lt_iff_toNat_lt.1 (UInt32.not_le.1 hle)
      have hzero : (0 : UInt32).toNat = 0 := rfl
      omega
  have hrest : draw.toNat % (most.toNat - least.toNat + 1) < most.toNat - least.toNat + 1 :=
    Nat.mod_lt _ (Nat.succ_pos _)
  have hleast := least.toNat_lt
  simp only [delay, UInt32.toNat_add, UInt64.toNat_toUInt32, UInt64.toNat_mod, toNat_span_add_one, hspan]
  -- neither cutting the remainder down to 32 bits nor adding it wraps
  rw [Nat.mod_eq_of_lt (a := draw.toNat % _) (by omega), Nat.mod_eq_of_lt (by omega)]

theorem le_delay (least most : UInt32) (draw : UInt64) : least.toNat ≤ (delay least most draw).toNat := by
  rw [toNat_delay]
  exact Nat.le_add_right _ _

theorem delay_le (least most : UInt32) (draw : UInt64) :
    (delay least most draw).toNat ≤ max least.toNat most.toNat := by
  have hrest : draw.toNat % (most.toNat - least.toNat + 1) < most.toNat - least.toNat + 1 :=
    Nat.mod_lt _ (Nat.succ_pos _)
  rw [toNat_delay]
  omega

/-- The delay of a chosen point comes from some word, also where none is drawn. -/
theorem pickDelay_eq (src : Random.Source σ) (least most : UInt32) (g : σ) :
    ∃ draw, (pickDelay src least most g).1 = delay least most draw := by
  unfold pickDelay
  split
  · exact ⟨_, rfl⟩
  · refine ⟨0, UInt32.toNat_inj.1 ?_⟩
    rw [toNat_delay]
    exact (Nat.add_eq_left.2 (Nat.zero_mod _)).symm

/-! ## Points -/

theorem point_of_disabled (src : Random.Source σ) {c : Controls} (t : Thread σ) (h : c.enabled = false) :
    point src c t = (none, c, t) := by
  rw [point, h]
  rfl

/-- A thread that is brought up to date may be given a number. -/
theorem controls_refresh (src : Random.Source σ) (c : Controls) (t : Thread σ) :
    ∃ threads, (refresh src c t).1 = { c with threads := threads } := by
  unfold refresh
  split
  · exact ⟨c.threads, rfl⟩
  · cases t.number with
    | none => exact ⟨c.threads + 1, rfl⟩
    | some n => exact ⟨c.threads, rfl⟩

theorem choose_of_rate (src : Random.Source σ) {rate : UInt32} (h : rate ≤ 1) (g : σ) :
    choose src rate g = (true, g) := if_pos h

/-- What a point of an enabled fuzzer does: it may give the thread a number, and it counts the delay it
injects, if it injects one. At rate one it does, and the delay comes from some word. -/
theorem point_of_enabled (src : Random.Source σ) {c : Controls} (t : Thread σ) (h : c.enabled = true) :
    ∃ d threads t', point src c t =
        (d, { c with threads := threads, injections := c.injections + if d.isSome then 1 else 0 }, t') ∧
      (c.rate ≤ 1 → d.isSome = true) ∧
      ∀ x, d = some x → ∃ draw, x = delay c.minDelay c.maxDelay draw := by
  obtain ⟨threads, hc⟩ := controls_refresh src c t
  unfold point
  rw [if_neg (show ¬ (!c.enabled) = true by simp [h])]
  generalize refresh src c t = r at hc ⊢
  obtain ⟨c', t'⟩ := r
  obtain rfl : c' = { c with threads := threads } := hc
  simp only
  cases hchosen : choose src c.rate t'.generator with
  | mk chosen g =>
    cases chosen with
    | false =>
      refine ⟨none, threads, { t' with generator := g }, by simp, fun hrate => ?_, fun x hx => nomatch hx⟩
      rw [choose_of_rate src hrate] at hchosen
      cases hchosen
    | true =>
      obtain ⟨draw, hdraw⟩ := pickDelay_eq src c.minDelay c.maxDelay g
      exact ⟨_, threads, _, rfl, fun _ => rfl, fun x hx => ⟨draw, (Option.some.inj hx).symm.trans hdraw⟩⟩

/-! ## A thread on its way -/

/-- A thread that passes points under changing controls. -/
structure Passage (σ : Type) where
  controls : Controls := {}
  thread : Thread σ
  /-- What each open scope found the enabled flag to be, innermost first. -/
  scopes : List Bool := []
  /-- What was injected at the points passed so far, in order. -/
  delays : List (Option UInt32) := []

inductive Move where
  | enable (on : Bool)
  | seed (seed : UInt64)
  | bounds (least most : UInt32)
  | rate (rate : UInt32)
  | enter (seed : UInt64) (least most : UInt32)
  | leave
  | point

namespace Passage

def start (g : σ) : Passage σ := { thread := { generator := g } }

/-- The thread passes a point. -/
def step (src : Random.Source σ) (p : Passage σ) : Passage σ :=
  { p with
    controls := (point src p.controls p.thread).2.1
    thread := (point src p.controls p.thread).2.2
    delays := p.delays ++ [(point src p.controls p.thread).1] }

def move (src : Random.Source σ) (p : Passage σ) : Move → Passage σ
  | .enable on => { p with controls := p.controls.enable on }
  | .seed seed => { p with controls := p.controls.setSeed seed }
  | .bounds least most => { p with controls := p.controls.setBounds least most }
  | .rate rate => { p with controls := p.controls.setRate rate }
  | .enter seed least most =>
    { p with controls := p.controls.enter seed least most, scopes := p.controls.enabled :: p.scopes }
  | .leave =>
    match p.scopes with
    | [] => p
    | on :: rest => { p with controls := p.controls.enable on, scopes := rest }
  | .point => p.step src

/-- Controls may be set, and points passed, at any time. -/
def machine (src : Random.Source σ) : Machine (Passage σ) Move := ⟨move src, fun _ _ => true⟩

end Passage

/-! ## What is in force -/

/-- The rate that a move sets. -/
def Move.rate? : Move → Option UInt32
  | .rate r => some r
  | _ => none

/-- The bounds that a move sets. -/
def Move.bounds? : Move → Option (UInt32 × UInt32)
  | .bounds least most => some (least, most)
  | .enter _ least most => some (least, most)
  | _ => none

/-- The rate that was set last. -/
def lastRate (moves : List Move) : UInt32 := (moves.filterMap Move.rate?).getLastD 1

/-- The bounds that were set last, the way they were given. -/
def lastBounds (moves : List Move) : UInt32 × UInt32 := (moves.filterMap Move.bounds?).getLastD (0, 50)

theorem lastRate_snoc (moves : List Move) (m : Move) :
    lastRate (moves ++ [m]) = m.rate?.getD (lastRate moves) := by
  cases h : m.rate? <;> simp [lastRate, List.filterMap_append, h]

theorem lastBounds_snoc (moves : List Move) (m : Move) :
    lastBounds (moves ++ [m]) = m.bounds?.getD (lastBounds moves) := by
  cases h : m.bounds? <;> simp [lastBounds, List.filterMap_append, h]

namespace Passage

/-- The controls are those set last, and the count is that of the delays injected. -/
structure Obeys (moves : List Move) (p : Passage σ) : Prop where
  rate : p.controls.rate = if lastRate moves = 0 then 1 else lastRate moves
  least : p.controls.minDelay = (lastBounds moves).1
  most : p.controls.maxDelay =
    if (lastBounds moves).2 < (lastBounds moves).1 then (lastBounds moves).1 else (lastBounds moves).2
  injections : p.controls.injections = UInt64.ofNat (p.delays.countP Option.isSome)

theorem obeys_start (g : σ) : Obeys [] (start g) := ⟨rfl, rfl, rfl, rfl⟩

variable {src : Random.Source σ} {p : Passage σ} {moves : List Move}

/-- The upper bound in force is the greater of the two that were given. -/
theorem Obeys.toNat_most (h : Obeys moves p) :
    p.controls.maxDelay.toNat = max (lastBounds moves).1.toNat (lastBounds moves).2.toNat := by
  rw [h.most]
  split
  · rename_i hlt
    have hnat := UInt32.lt_iff_toNat_lt.1 hlt
    omega
  · rename_i hle
    have hnat := UInt32.le_iff_toNat_le.1 (UInt32.not_lt.1 hle)
    omega

/-- A point sets nothing, and what it injects is counted. -/
theorem Obeys.step (h : Obeys moves p) : Obeys (moves ++ [.point]) (p.step src) := by
  have hrate : lastRate (moves ++ [.point]) = lastRate moves := lastRate_snoc moves .point
  have hbounds : lastBounds (moves ++ [.point]) = lastBounds moves := lastBounds_snoc moves .point
  cases hon : p.controls.enabled with
  | false =>
    have hpoint := point_of_disabled src p.thread hon
    constructor <;> simp only [Passage.step, hpoint, hrate, hbounds]
    · exact h.rate
    · exact h.least
    · exact h.most
    · simpa using h.injections
  | true =>
    obtain ⟨d, threads, t, hpoint, -, -⟩ := point_of_enabled src p.thread hon
    constructor <;> simp only [Passage.step, hpoint, hrate, hbounds]
    · exact h.rate
    · exact h.least
    · exact h.most
    · rw [h.injections, List.countP_append, List.countP_singleton]
      cases d with
      | none => simp
      | some x => simp [UInt64.ofNat_add]

/-- A move that sets neither the rate nor the bounds and passes no point. -/
theorem Obeys.congr (h : Obeys moves p) {m : Move} {q : Passage σ} (hrate : m.rate? = none)
    (hbounds : m.bounds? = none) (hdelays : q.delays = p.delays)
    (hcontrols : q.controls = { p.controls with
      enabled := q.controls.enabled
      seed := q.controls.seed
      generation := q.controls.generation }) : Obeys (moves ++ [m]) q := by
  have hr : lastRate (moves ++ [m]) = lastRate moves := by rw [lastRate_snoc, hrate, Option.getD_none]
  have hb : lastBounds (moves ++ [m]) = lastBounds moves := by rw [lastBounds_snoc, hbounds, Option.getD_none]
  constructor
  · rw [hcontrols, hr]
    exact h.rate
  · rw [hcontrols, hb]
    exact h.least
  · rw [hcontrols, hb]
    exact h.most
  · rw [hcontrols, hdelays]
    exact h.injections

/-- The end of a scope does not touch what else is in force. -/
theorem move_leave (src : Random.Source σ) (p : Passage σ) :
    (p.move src .leave).delays = p.delays ∧ ∃ on, (p.move src .leave).controls = p.controls.enable on := by
  simp only [Passage.move]
  split
  · exact ⟨rfl, p.controls.enabled, rfl⟩
  · exact ⟨rfl, _, rfl⟩

theorem Obeys.move (h : Obeys moves p) (m : Move) : Obeys (moves ++ [m]) (p.move src m) := by
  have hrate := lastRate_snoc moves m
  have hbounds := lastBounds_snoc moves m
  cases m with
  | enable on => exact h.congr rfl rfl rfl rfl
  | seed seed => exact h.congr rfl rfl rfl rfl
  | bounds least most => exact ⟨hrate ▸ h.rate, hbounds ▸ rfl, hbounds ▸ rfl, h.injections⟩
  | rate rate => exact ⟨hrate ▸ rfl, hbounds ▸ h.least, hbounds ▸ h.most, h.injections⟩
  | enter seed least most => exact ⟨hrate ▸ h.rate, hbounds ▸ rfl, hbounds ▸ rfl, h.injections⟩
  | leave =>
    obtain ⟨hdelays, on, hcontrols⟩ := move_leave src p
    exact h.congr rfl rfl hdelays (by rw [hcontrols]; rfl)
  | point => exact h.step

theorem Obeys.run (h : Obeys moves p) (later : List Move) :
    Obeys (moves ++ later) ((machine src).run p later) := by
  induction later generalizing p moves with
  | nil => simpa using h
  | cons m later ih =>
    have hmove : Obeys (moves ++ [m]) (p.move src m) := h.move m
    have hrest := ih hmove
    rwa [List.append_assoc, List.singleton_append] at hrest

/-! ## Scopes -/

end Passage

/-- Whether scopes are nested properly in what is done while some of them, opened before, are open: they
are closed in the end, and nothing else is closed that was not opened. -/
def nested : Nat → List Move → Bool
  | opened, [] => opened == 0
  | opened, .enter .. :: moves => nested (opened + 1) moves
  | 0, .leave :: _ => false
  | opened + 1, .leave :: moves => nested opened moves
  | opened, _ :: moves => nested opened moves

namespace Passage

variable {src : Random.Source σ} {p : Passage σ} {moves : List Move}

/-- When scopes are closed properly, those that were open before are all that are open. -/
theorem scopes_run (src : Random.Source σ) (own : List Bool) {rest : List Bool} (hs : p.scopes = own ++ rest)
    (h : nested own.length moves = true) : ((machine src).run p moves).scopes = rest := by
  induction moves generalizing p own with
  | nil =>
    have hnil : own = [] := by simpa [nested] using h
    rw [Machine.run_nil, hs, hnil, List.nil_append]
  | cons m moves ih =>
    rw [Machine.run_cons]
    cases m with
    | enter seed least most => exact ih (p.controls.enabled :: own) (by simp [machine, move, hs]) h
    | leave =>
      cases own with
      | nil => cases h
      | cons on own => exact ih own (by simp [machine, move, hs]) h
    | enable on => exact ih own hs h
    | seed seed => exact ih own hs h
    | bounds least most => exact ih own hs h
    | rate rate => exact ih own hs h
    | point => exact ih own hs h

/-- A scope with properly nested ones within it puts the enabled flag back. -/
theorem run_scope (src : Random.Source σ) (p : Passage σ) (seed : UInt64) (least most : UInt32)
    (h : nested 0 moves = true) :
    ((machine src).run p (.enter seed least most :: moves ++ [.leave])).controls.enabled = p.controls.enabled ∧
      ((machine src).run p (.enter seed least most :: moves ++ [.leave])).scopes = p.scopes := by
  have hentered : (p.move src (.enter seed least most)).scopes = [] ++ (p.controls.enabled :: p.scopes) := rfl
  have hscopes := scopes_run src [] hentered h
  rw [List.cons_append, Machine.run_cons, Machine.run_append, Machine.run_cons, Machine.run_nil]
  simp only [machine] at hscopes ⊢
  generalize Machine.run _ _ moves = q at hscopes ⊢
  have hleave : q.move src .leave =
      { q with controls := q.controls.enable p.controls.enabled, scopes := p.scopes } := by
    simp only [Passage.move, hscopes]
  rw [hleave]
  exact ⟨rfl, rfl⟩

end Passage

/-! ## Sessions -/

/-- Several points in a row are as many moves. -/
theorem Passage.run_points (src : Random.Source σ) (n : Nat) (p : Passage σ) (before : Array Bool) :
    ∃ delays, (machine src).run p (List.replicate n .point) = { p with
      controls := (points src n p.controls p.thread before).2.1
      thread := (points src n p.controls p.thread before).2.2
      delays := delays } := by
  induction n generalizing p before with
  | zero => exact ⟨p.delays, rfl⟩
  | succ n ih =>
    obtain ⟨delays, hrest⟩ := ih (p.step src) (before.push (point src p.controls p.thread).1.isSome)
    exact ⟨delays, hrest⟩

namespace Session

/-- The thread of a session on its way. -/
def passage (s : Session) : Passage Random.MersenneTwister :=
  { controls := s.controls, thread := s.thread, scopes := s.scopes }

/-- Whether the thread of a session comes from one state to another by moves of its own. -/
def Leads (s s' : Session) : Prop :=
  ∃ moves delays, (Passage.machine Random.Source.twister).run s.passage moves =
    { s'.passage with delays := delays }

variable {s s' : Session}

theorem Leads.of_eq (hc : s'.controls = s.controls) (ht : s'.thread = s.thread) (hs : s'.scopes = s.scopes) :
    s.Leads s' := ⟨[], [], by simp [passage, hc, ht, hs]⟩

theorem leads_pass (hc : s'.controls = s.controls) (ht : s'.thread = s.thread) (hs : s'.scopes = s.scopes)
    (n : Nat) : s.Leads (s'.pass n).2 := by
  obtain ⟨delays, hrun⟩ := Passage.run_points Random.Source.twister n s.passage #[]
  refine ⟨List.replicate n .point, delays, hrun.trans ?_⟩
  simp only [passage, pass, hc, ht, hs]

theorem leads_onContexts (s : Session) (step : Script.Step) : s.Leads (s.onContexts step).2.2 := by
  unfold onContexts
  split
  · exact .of_eq rfl rfl rfl
  · simp only
    split
    · exact leads_pass rfl rfl rfl _
    · exact leads_pass rfl rfl rfl _

/-- Whatever a session is asked for, its thread makes moves of its own, unless a new thread is started. -/
theorem leads_serve (s : Session) {r : Request} (hr : ∀ n, r ≠ .threadPattern n) :
    s.Leads (s.serve r).2.2 := by
  cases r with
  | enable on => exact ⟨[.enable on], [], rfl⟩
  | seed seed => exact ⟨[.seed seed], [], rfl⟩
  | bounds least most => exact ⟨[.bounds least most], [], rfl⟩
  | rate rate => exact ⟨[.rate rate], [], rfl⟩
  | points n => exact leads_pass rfl rfl rfl n
  | enterScope seed least most => exact ⟨[.enter seed least most], [], rfl⟩
  | leaveScope =>
    refine ⟨[.leave], [], ?_⟩
    cases hs : s.scopes <;> simp [serve, hs, injectedSince, passage, Passage.machine, Passage.move]
  | counterAdd =>
    simp only [serve]
    split
    · exact leads_pass rfl rfl rfl 0
    · exact leads_pass rfl rfl rfl 1
  | counterRelease =>
    simp only [serve]
    split
    · exact .of_eq rfl rfl rfl
    · exact leads_pass rfl rfl rfl 1
  | subscribe name => exact .of_eq rfl rfl rfl
  | fire name =>
    simp only [serve]
    split
    · exact leads_pass rfl rfl rfl 0
    · exact leads_pass rfl rfl rfl 1
  | context id => exact leads_onContexts s _
  | child => exact leads_onContexts s _
  | success => exact leads_onContexts s _
  | error => exact leads_onContexts s _
  | pattern n => exact leads_pass rfl rfl rfl n
  | threadPattern n => exact absurd rfl (hr n)

end Session

/-- **Whatever words a generator yields, points keep to the controls.** At any moment of any history of one
thread:

* passing a point never divides by zero, whatever the controls are;
* where the fuzzer is disabled, a point changes nothing;
* where it is enabled, a point changes nothing in the controls but the count of delays and perhaps that of
  threads: it raises the former by one if it injects a delay and leaves it alone otherwise. If the rate was
  last set to zero or one, it does inject one; and the delay is no less than the bound that was given first
  when bounds were last set, and no more than the greater of the two;
* so many delays have been counted as were injected, up to the range of 64 bits;
* whichever two bounds are read, a delay is the first plus a remainder, in numbers, so it is no less than
  the first and no more than the greater one, and nothing wraps;
* the end of a scope in which scopes are nested properly puts the enabled flag back to what it was before
  the scope. -/
theorem keeps_to_controls (src : Random.Source σ) (g : σ) {moves : List Move} {p : Passage σ}
    (hp : (Passage.machine src).run (.start g) moves = p) :
    (∀ c t, point? src c t = some (point src c t)) ∧
    (p.controls.enabled = false → point src p.controls p.thread = (none, p.controls, p.thread)) ∧
    (p.controls.enabled = true → ∃ d threads t,
      point src p.controls p.thread =
        (d, { p.controls with
          threads := threads
          injections := p.controls.injections + if d.isSome then 1 else 0 }, t) ∧
      (lastRate moves ≤ 1 → d.isSome = true) ∧
      ∀ x, d = some x → (lastBounds moves).1.toNat ≤ x.toNat ∧
        x.toNat ≤ max (lastBounds moves).1.toNat (lastBounds moves).2.toNat) ∧
    p.controls.injections = UInt64.ofNat (p.delays.countP Option.isSome) ∧
    (∀ (least most : UInt32) (g : σ), ∃ draw : UInt64,
      (pickDelay src least most g).1.toNat =
        least.toNat + draw.toNat % (most.toNat - least.toNat + 1) ∧
      (pickDelay src least most g).1.toNat ≤ max least.toNat most.toNat) ∧
    (∀ seed least most (inside : List Move), nested 0 inside = true →
      ((Passage.machine src).run p (.enter seed least most :: inside ++ [.leave])).controls.enabled =
        p.controls.enabled) := by
  have hobeys : Passage.Obeys moves p := hp ▸ (Passage.obeys_start g).run moves
  refine ⟨point?_eq src, point_of_disabled src p.thread, fun hon => ?_, hobeys.injections, ?_, ?_⟩
  · obtain ⟨d, threads, t, hpoint, hrate, hdelay⟩ := point_of_enabled src p.thread hon
    refine ⟨d, threads, t, hpoint, fun hlast => hrate ?_, fun x hx => ?_⟩
    · rw [hobeys.rate]
      split
      · exact UInt32.le_refl 1
      · exact hlast
    · obtain ⟨draw, rfl⟩ := hdelay x hx
      refine ⟨hobeys.least ▸ le_delay _ _ draw, ?_⟩
      have hle := delay_le p.controls.minDelay p.controls.maxDelay draw
      have hleast := congrArg UInt32.toNat hobeys.least
      have hmost := hobeys.toNat_most
      omega
  · intro least most g
    obtain ⟨draw, hdraw⟩ := pickDelay_eq src least most g
    exact ⟨draw, hdraw ▸ toNat_delay least most draw, hdraw ▸ delay_le least most draw⟩
  · intro seed least most inside hnested
    exact (Passage.run_scope src p seed least most hnested).1

/-- A generator that yields the numbers in order. -/
def countingUp : Random.Source UInt64 where
  blank := 0
  seeded _ := 0
  next n := (n, n + 1)

/-- Bounds are given in the wrong order and the rate is set to zero, in a scope that is still open. -/
def scopedMoves : List Move :=
  [.enter 7 1 2, .bounds 9 4, .rate 0, .point, .enable false, .point, .enable true]

theorem keeps_to_controls_scoped :
    ∃ p, (Passage.machine countingUp).run (.start 5) scopedMoves = p ∧
      p.delays = [some 9, none] ∧ p.controls.enabled = true ∧ p.controls.injections = UInt64.ofNat 1 ∧
      (∃ d threads t, point countingUp p.controls p.thread =
          (some d, { p.controls with threads := threads, injections := p.controls.injections + 1 }, t) ∧
        d.toNat = 9) ∧
      nested 0 [.point, .enter 3 0 4294967295, .enable false, .leave] = true ∧
      ((Passage.machine countingUp).run p
        (.enter 1 0 8 :: [.point, .enter 3 0 4294967295, .enable false, .leave] ++ [.leave])).controls.enabled =
          true := by
  obtain ⟨-, -, hpoint, hcount, -, hscope⟩ :=
    @keeps_to_controls UInt64 countingUp 5 scopedMoves _ rfl
  have hon : ((Passage.machine countingUp).run (.start 5) scopedMoves).controls.enabled = true := by
    decide +kernel
  have hnested : nested 0 [.point, .enter 3 0 4294967295, .enable false, .leave] = true := rfl
  obtain ⟨d, threads, t, heq, hsome, hbounds⟩ := hpoint hon
  obtain ⟨x, rfl⟩ := Option.isSome_iff_exists.1 (hsome (by decide))
  obtain ⟨hleast, hmost⟩ := hbounds x rfl
  have hlow : (lastBounds scopedMoves).1.toNat = 9 := by decide
  have hhigh : (lastBounds scopedMoves).2.toNat = 4 := by decide
  exact ⟨_, rfl, by decide +kernel, hon, hcount.trans (by decide +kernel), ⟨x, threads, t, heq, by omega⟩,
    hnested, (hscope 1 0 8 _ hnested).trans hon⟩

end FanIn.Fuzzer
