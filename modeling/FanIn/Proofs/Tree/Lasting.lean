import FanIn.Proofs.Tree.Ledger

/-!
# What lasts in the books

What an account says is not taken back: its parent and its link are for good, its outcome is decided
once and by a terminal call, what was published stays published, and complete contexts stay
complete. `Step.grows` says so of one step, for every account.

Two consequences. An outcome that a context has published, or is going to publish, is the one that a
terminal call decided (`Step.voices`). And the slot for an external link is due, by the signal, until
the signal fires (`Step.pledged`).
-/

namespace FanIn

/-- The account of a context that has just come to be. -/
structure Account.Fresh (a : Account) : Prop where
  state : a.state = .pending
  before : a.before = none
  response : a.response = none
  incomplete : a.isComplete = false

namespace Ledger

variable {t : Terms} {verdict : Option (ContextNo × Response)} {L L' : Ledger}

/-- A value of a channel is as it was, or it is an outcome that was due. -/
def Told (L : Ledger) (c : ContextNo) (x y : Option Response) : Prop :=
  y = x ∨ ∃ r, .outcome c r ∈ L.dues ∧ x = none ∧ y = some r

theorem Told.or {c : ContextNo} {r : Response} (h : .outcome c r ∈ L.dues) (x : Option Response) :
    L.Told c x (x.or (some r)) := by
  cases x with
  | none => exact .inr ⟨r, h, rfl, rfl⟩
  | some s => exact .inl rfl

/-- How an account changes, given the terminal call that is made. -/
structure Grows (verdict : Option (ContextNo × Response)) (L : Ledger) (c : ContextNo)
    (a b : Account) : Prop where
  parent : b.parent = a.parent
  link : b.link = a.link
  state : b.state = a.state ∨
    a.state = .pending ∧ ∃ r, verdict = some (c, r) ∧ b.state = r.state
  before : L.Told c a.before b.before
  response : L.Told c a.response b.response
  complete : a.isComplete = true → b.isComplete = true

theorem Grows.refl {c : ContextNo} (a : Account) : Grows verdict L c a a :=
  ⟨rfl, rfl, .inl rfl, .inl rfl, .inl rfl, id⟩

/-- What one account says comes from what it said before, or it is new. -/
structure Extends (verdict : Option (ContextNo × Response)) (L L' : Ledger) : Prop where
  length : L.accounts.length ≤ L'.accounts.length
  account : ∀ (c : ContextNo) (b : Account), L'.accounts[c]? = some b →
    (∃ a, L.accounts[c]? = some a ∧ Grows verdict L c a b) ∨
      L.accounts.length ≤ c ∧ b.Fresh

theorem Extends.of_eq (h : L'.accounts = L.accounts) : Extends verdict L L' := by
  refine ⟨by rw [h], fun c b hb => .inl ⟨b, ?_, .refl b⟩⟩
  rwa [h] at hb

theorem Extends.congr {L₁ : Ledger} (h : Extends verdict L L₁) (ha : L'.accounts = L₁.accounts) :
    Extends verdict L L' :=
  ⟨ha ▸ h.length, ha ▸ h.account⟩

theorem Extends.of_change {c : ContextNo} {f : Account → Account}
    (h : L'.accounts = (L.change c f).accounts)
    (hf : ∀ a, L.accounts[c]? = some a → Grows verdict L c a (f a)) : Extends verdict L L' := by
  refine ⟨by rw [h, length_change], fun e b hb => .inl ?_⟩
  rw [h, accounts_change] at hb
  by_cases he : c = e
  · subst he
    rw [if_pos rfl] at hb
    obtain ⟨a, ha, rfl⟩ := Option.map_eq_some_iff.1 hb
    exact ⟨a, ha, hf a ha⟩
  · rw [if_neg he] at hb
    exact ⟨b, hb, .refl b⟩

theorem Extends.of_recount (L : Ledger) (c : ContextNo) (slots : Counter) :
    Extends verdict L (L.recount c slots) :=
  .of_change rfl fun _ _ => ⟨rfl, rfl, .inl rfl, .inl rfl, .inl rfl, id⟩

theorem Extends.enter {a : Account} (h : Extends verdict L L') (ha : a.Fresh) :
    Extends verdict L (L'.enter a) := by
  refine ⟨by rw [length_enter]; exact Nat.le_succ_of_le h.length, ?_⟩
  intro c b hb
  rw [accounts_enter] at hb
  split at hb
  · rename_i heq
    obtain rfl := Option.some.inj hb
    exact .inr ⟨heq ▸ h.length, ha⟩
  · exact h.account c b hb

/-- Whatever happens, the accounts only grow. -/
theorem Step.grows (h : Step t verdict L L') : Extends verdict L L' := by
  cases h with
  | root => exact (Extends.of_eq rfl).enter ⟨rfl, rfl, rfl, rfl⟩
  | @linked _ s _ =>
    have hnew : Account.Fresh { link := some s, slots := .start 2 } := ⟨rfl, rfl, rfl, rfl⟩
    exact ((Extends.of_eq rfl).enter hnew).congr (accounts_entrust _ s _)
  | child _ _ _ => exact (Extends.of_recount L _ _).enter ⟨rfl, rfl, rfl, rfl⟩
  | rejected _ _ _ => exact (Extends.of_recount L _ _).congr rfl
  | join _ _ _ => exact (Extends.of_recount L _ _).congr rfl
  | leave _ _ => exact .of_eq rfl
  | @decide _ c a r hc ha hv =>
    refine .of_change (c := c) (f := fun a => { a with state := r.state }) rfl ?_
    intro b hb
    obtain rfl := Option.some.inj (hb.symm.trans hc)
    exact ⟨rfl, rfl, .inr ⟨ha, r, hv, rfl⟩, .inl rfl, .inl rfl, id⟩
  | signal _ => exact .of_eq rfl
  | settle _ => exact .of_eq (by simp)
  | resolve _ _ => exact .of_eq rfl
  | @before _ c r hr =>
    have hdue : .outcome c r ∈ L.dues := Multiset.mem_add.2 (.inr hr)
    exact .of_change (f := fun a => { a with before := a.before.or (some r) }) rfl fun _ _ =>
      ⟨rfl, rfl, .inl rfl, .or hdue _, .inl rfl, id⟩
  | @answer L c r =>
    have hdue : .outcome c r ∈ (L.owe (.outcome c r)).dues := by
      rw [dues_owe]
      exact Multiset.mem_cons_self _ _
    exact .of_change (f := fun a => { a with response := a.response.or (some r) }) rfl fun _ _ =>
      ⟨rfl, rfl, .inl rfl, .inl rfl, .or hdue _, id⟩
  | @release L c share _ last slots _ _ =>
    exact .of_change (accounts_release L c share slots last) fun _ _ =>
      ⟨rfl, rfl, .inl rfl, .inl rfl, .inl rfl, id⟩
  | refuse _ _ => exact .of_eq rfl
  | @complete _ c queue a _ _ =>
    exact .of_change (accounts_complete L c queue a.parent) fun _ _ =>
      ⟨rfl, rfl, .inl rfl, .inl rfl, .inl rfl, fun _ => rfl⟩
  | abandon _ => exact .of_eq rfl

/-- What there was is still there. -/
theorem Extends.old (h : Extends verdict L L') {c : ContextNo} {a : Account}
    (hc : L.accounts[c]? = some a) : ∃ b, L'.accounts[c]? = some b ∧ Grows verdict L c a b := by
  have hlt : c < L.accounts.length := (List.getElem?_eq_some_iff.1 hc).1
  have hb := List.getElem?_eq_getElem (Nat.lt_of_lt_of_le hlt h.length)
  rcases h.account c _ hb with ⟨a', ha', hg⟩ | ⟨hge, _⟩
  · obtain rfl := Option.some.inj (ha'.symm.trans hc)
    exact ⟨_, hb, hg⟩
  · exact absurd hlt (Nat.not_lt.2 hge)

/-- A parent is for good. -/
theorem Steps.parent (h : Steps t verdict L L') {c : ContextNo} {a : Account}
    (hc : L.accounts[c]? = some a) : ∃ b, L'.accounts[c]? = some b ∧ b.parent = a.parent := by
  induction h with
  | refl => exact ⟨a, hc, rfl⟩
  | tail _ hstep ih =>
    obtain ⟨b, hb, hparent⟩ := ih
    obtain ⟨b', hb', hgrows⟩ := hstep.grows.old hb
    exact ⟨b', hb', hgrows.parent.trans hparent⟩

/-! ## Outcomes -/

/-- An outcome that a context has published or is going to publish. -/
def Voices (L : Ledger) (c : ContextNo) (r : Response) : Prop :=
  .outcome c r ∈ L.dues ∨
    ∃ a, L.accounts[c]? = some a ∧ (a.before = some r ∨ a.response = some r)

/-- A terminal call decides an outcome. -/
def Decides (verdict : Option (ContextNo × Response)) (L : Ledger) (c : ContextNo)
    (r : Response) : Prop :=
  verdict = some (c, r) ∧ ∃ a, L.accounts[c]? = some a ∧ a.state = .pending

/-- Whatever outcome is due was due before, or is decided now. -/
theorem Step.outcome_due (h : Step t verdict L L') {c : ContextNo} {r : Response}
    (hr : .outcome c r ∈ L'.dues) : .outcome c r ∈ L.dues ∨ Decides verdict L c r := by
  cases h with
  | root => exact .inl hr
  | @linked _ s hlt =>
    left
    rw [dues_entrust (L := L.enter { link := some s, slots := .start 2 }) hlt] at hr
    simpa using hr
  | child _ _ _ => exact .inl hr
  | rejected _ _ _ =>
    rw [dues_owe] at hr
    left
    simpa [recount] using hr
  | join _ _ _ => exact .inl hr
  | leave _ _ =>
    rw [dues_owe] at hr
    left
    simpa using hr
  -- the only step after which an outcome is due that was not
  | @decide _ d a s hd ha hv =>
    rw [dues_owe] at hr
    rcases Multiset.mem_cons.1 hr with heq | hr
    · obtain ⟨rfl, rfl⟩ := Due.outcome.inj heq
      exact .inr ⟨hv, a, hd, ha⟩
    · exact .inl hr
  | signal _ => left; simpa [dues] using hr
  | settle hlt => left; rwa [dues_entrust hlt, ← dues_owe] at hr
  | resolve _ _ => left; rwa [dues_resolve] at hr
  | before _ => exact .inl hr
  | answer =>
    rw [dues_owe] at hr ⊢
    left
    rcases Multiset.mem_cons.1 hr with heq | hr
    · cases heq
    · exact Multiset.mem_cons_of_mem hr
  | @release L d share a last slots _ _ =>
    rw [dues_owe]
    left
    apply Multiset.mem_cons_of_mem
    rwa [dues_release] at hr
  | refuse _ _ =>
    rw [dues_owe]
    exact .inl (Multiset.mem_cons_of_mem hr)
  | @complete _ d queue a _ _ =>
    left
    unfold Ledger.complete at hr
    cases hp : a.parent with
    | none => simpa [hp] using hr
    | some p => simpa [hp] using hr
  | abandon _ => exact .inl hr

/-- Whatever outcome is or will be published was going to be before, or is decided now. -/
theorem Step.voices (h : Step t verdict L L') {c : ContextNo} {r : Response}
    (hr : L'.Voices c r) : L.Voices c r ∨ Decides verdict L c r := by
  rcases hr with hr | ⟨b, hb, hr⟩
  · rcases h.outcome_due hr with hr | hr
    · exact .inl (.inl hr)
    · exact .inr hr
  · left
    -- what is published now was published before, or was due when it was
    rcases h.grows.account c b hb with ⟨a, ha, hg⟩ | ⟨_, hnew⟩
    · rcases hr with hr | hr
      · rcases hg.before with heq | ⟨s, hs, _, heq⟩
        · exact .inr ⟨a, ha, .inl (heq ▸ hr)⟩
        · obtain rfl := Option.some.inj (heq.symm.trans hr)
          exact .inl hs
      · rcases hg.response with heq | ⟨s, hs, _, heq⟩
        · exact .inr ⟨a, ha, .inr (heq ▸ hr)⟩
        · obtain rfl := Option.some.inj (heq.symm.trans hr)
          exact .inl hs
    · rcases hr with hr | hr
      · rw [hnew.before] at hr; cases hr
      · rw [hnew.response] at hr; cases hr

/-- How far the outcome of a context is decided; that of a context yet to be is not. -/
def stateOf (L : Ledger) (c : ContextNo) : State := (L.accounts[c]?).elim .pending Account.state

theorem stateOf_of_getElem? {c : ContextNo} {a : Account} (h : L.accounts[c]? = some a) :
    L.stateOf c = a.state := by
  unfold stateOf
  rw [h]
  rfl

/-- The outcome of a context stays as it is, or it is decided now. -/
def Rules (verdict : Option (ContextNo × Response)) (c : ContextNo) (s s' : State) : Prop :=
  s' = s ∨ s = .pending ∧ ∃ r, verdict = some (c, r) ∧ s' = r.state

theorem Step.rules (h : Step t verdict L L') (c : ContextNo) :
    Rules verdict c (L.stateOf c) (L'.stateOf c) := by
  have hx := h.grows
  cases hb : L'.accounts[c]? with
  | none =>
    have ha : L.accounts[c]? = none :=
      List.getElem?_eq_none (Nat.le_trans hx.length (List.getElem?_eq_none_iff.1 hb))
    left
    unfold stateOf
    rw [ha, hb]
  | some b =>
    rw [stateOf_of_getElem? hb]
    rcases hx.account c b hb with ⟨a, ha, hg⟩ | ⟨hge, hnew⟩
    · rw [stateOf_of_getElem? ha]
      exact hg.state
    · left
      unfold stateOf
      rw [List.getElem?_eq_none hge, hnew.state]
      rfl

/-- A decided outcome is not decided again. -/
theorem Rules.trans {c : ContextNo} {s s' s'' : State} (h : Rules verdict c s s')
    (h' : Rules verdict c s' s'') : Rules verdict c s s'' := by
  rcases h' with rfl | ⟨hpending, r, hr, rfl⟩
  · exact h
  · rcases h with rfl | ⟨_, r', _, rfl⟩
    · exact .inr ⟨hpending, r, hr, rfl⟩
    · exact absurd hpending r'.state_ne_pending

theorem Steps.rules (h : Steps t verdict L L') (c : ContextNo) :
    Rules verdict c (L.stateOf c) (L'.stateOf c) := by
  induction h with
  | refl => exact .inl rfl
  | tail _ hstep ih => exact ih.trans (hstep.rules c)

/-- Whatever outcome is or will be published was going to be before, or is decided now. -/
theorem Steps.voices (h : Steps t verdict L L') {c : ContextNo} {r : Response}
    (hr : L'.Voices c r) : L.Voices c r ∨ verdict = some (c, r) ∧ L.stateOf c = .pending := by
  induction h with
  | refl => exact .inl hr
  | tail hsteps hstep ih =>
    rcases hstep.voices hr with hr | ⟨hv, a, ha, hpending⟩
    · exact ih hr
    · right
      refine ⟨hv, ?_⟩
      rw [← stateOf_of_getElem? ha] at hpending
      rcases Steps.rules hsteps c with heq | ⟨hp, _⟩
      · exact heq.symm.trans hpending
      · exact hp

/-! ## Links -/

/-- What waits for signals: the slot of a link, as long as its signal has not fired, and the outcomes
of errors. -/
structure Pledged (L : Ledger) : Prop where
  kinds : ∀ (s : SignalNo) (p : Pledge) (d : Due), L.pledges[s]? = some p → d ∈ p.dues →
    (∃ c a, d = .slot c .link ∧ L.accounts[c]? = some a ∧ a.link = some s) ∨
      ∃ c r, d = .outcome c r
  fired : ∀ (s : SignalNo) (p : Pledge), L.pledges[s]? = some p → p.isFired = true → p.dues = 0
  links : ∀ (c : ContextNo) (a : Account) (s : SignalNo), L.accounts[c]? = some a →
    a.link = some s → ∃ p, L.pledges[s]? = some p ∧ (p.isFired = true ∨ .slot c .link ∈ p.dues)

/-- What is pledged is the same, and no new context has a link. -/
theorem Pledged.mono (h : L.Pledged) (hp : L'.pledges = L.pledges) (hx : Extends verdict L L')
    (hn : ∀ (c : ContextNo) (b : Account), L'.accounts[c]? = some b → L.accounts.length ≤ c →
      b.link = none) : L'.Pledged where
  kinds := by
    rw [hp]
    intro s p d hs hd
    rcases h.kinds s p d hs hd with ⟨c, a, rfl, ha, hl⟩ | ho
    · obtain ⟨b, hb, hg⟩ := hx.old ha
      exact .inl ⟨c, b, rfl, hb, hg.link.trans hl⟩
    · exact .inr ho
  fired := by
    rw [hp]
    exact h.fired
  links := by
    rw [hp]
    intro c b s hb hl
    rcases hx.account c b hb with ⟨a, ha, hg⟩ | ⟨hge, _⟩
    · exact h.links c a s ha (hg.link.symm.trans hl)
    · rw [hn c b hb hge] at hl
      cases hl

theorem Pledged.enter (h : L.Pledged) {a : Account} (ha : a.Fresh) (hl : a.link = none) :
    (L.enter a).Pledged := by
  refine h.mono rfl ((Extends.of_eq rfl : Extends none L L).enter ha) ?_
  intro c b hb hge
  rw [accounts_enter] at hb
  split at hb
  · obtain rfl := Option.some.inj hb
    exact hl
  · exact absurd (List.getElem?_eq_some_iff.1 hb).1 (Nat.not_lt.2 hge)

/-- Neither what is pledged nor the number of contexts has changed. -/
theorem Pledged.keep (h : L.Pledged) (hp : L'.pledges = L.pledges) (hx : Extends verdict L L')
    (hn : L'.accounts.length = L.accounts.length) : L'.Pledged := by
  apply h.mono hp hx
  intro c b hb hge
  have hlt : c < L'.accounts.length := (List.getElem?_eq_some_iff.1 hb).1
  exact absurd (hn ▸ hlt) (Nat.not_lt.2 hge)

/-- Something more is pledged by a signal, perhaps the slot for a link that has just come to be. -/
theorem Pledged.entrust {s : SignalNo} {d : Due} (hs : s < L.pledges.length)
    (hk : ∀ (i : SignalNo) (p : Pledge) (e : Due), L.pledges[i]? = some p → e ∈ p.dues ∨
      i = s ∧ e = d → (∃ c a, e = .slot c .link ∧ L.accounts[c]? = some a ∧ a.link = some i) ∨
        ∃ c r, e = .outcome c r)
    (hf : ∀ (i : SignalNo) (p : Pledge), L.pledges[i]? = some p → p.isFired = true → p.dues = 0)
    (hl : ∀ (c : ContextNo) (a : Account) (i : SignalNo), L.accounts[c]? = some a →
      a.link = some i → (i = s ∧ d = .slot c .link) ∨
        ∃ p, L.pledges[i]? = some p ∧ (p.isFired = true ∨ .slot c .link ∈ p.dues)) :
    (L.entrust s d).Pledged := by
  have hps : L.pledges[s]? = some L.pledges[s] := List.getElem?_eq_getElem hs
  unfold Ledger.entrust
  split
  · rename_i hfired
    refine ⟨fun i p e hi he => hk i p e hi (.inl he), hf, ?_⟩
    intro c a i ha hli
    rcases hl c a i ha hli with ⟨rfl, _⟩ | hp
    · exact ⟨_, hps, .inl (by simpa [hps] using hfired)⟩
    · exact hp
  · rename_i hfired
    have hfired : L.pledges[s].isFired = false := by simpa [hps] using hfired
    -- a pledge now: the one that has become longer, or what it was
    have hcases : ∀ (i : SignalNo) (q : Pledge),
        (L.pledges.modify s fun p => { p with dues := d ::ₘ p.dues })[i]? = some q →
        (i = s ∧ q = { L.pledges[s] with dues := d ::ₘ L.pledges[s].dues }) ∨
          L.pledges[i]? = some q := by
      intro i q hq
      rw [List.getElem?_modify] at hq
      by_cases hi : s = i
      · subst hi
        left
        simpa [hps] using hq.symm
      · right
        simpa [hi] using hq
    constructor
    case kinds =>
      intro i q e hq he
      rcases hcases i q hq with ⟨rfl, rfl⟩ | hq
      · rcases Multiset.mem_cons.1 he with rfl | he
        · exact hk i _ e hps (.inr ⟨rfl, rfl⟩)
        · exact hk i _ e hps (.inl he)
      · exact hk i q e hq (.inl he)
    case fired =>
      intro i q hq hfq
      rcases hcases i q hq with ⟨rfl, rfl⟩ | hq
      · exact absurd (hfired.symm.trans hfq) (by decide)
      · exact hf i q hq hfq
    case links =>
      intro c a i ha hli
      show ∃ p, (L.pledges.modify s _)[i]? = some p ∧ _
      rw [List.getElem?_modify]
      rcases hl c a i ha hli with ⟨rfl, rfl⟩ | ⟨q, hq, hor⟩
      · refine ⟨{ L.pledges[i] with dues := .slot c .link ::ₘ L.pledges[i].dues }, by simp [hps], ?_⟩
        exact .inr (Multiset.mem_cons_self _ _)
      · by_cases hi : s = i
        · subst hi
          refine ⟨{ q with dues := d ::ₘ q.dues }, by simp [hq], hor.imp_right ?_⟩
          intro hm
          exact Multiset.mem_cons_of_mem hm
        · exact ⟨q, by simp [hi, hq], hor⟩

theorem Pledged.resolve (h : L.Pledged) (s : SignalNo) : (L.resolve s).Pledged := by
  have hcases : ∀ (i : SignalNo) (q : Pledge), (L.resolve s).pledges[i]? = some q →
      q = { isFired := true } ∨ L.pledges[i]? = some q := by
    intro i q hq
    have hq : (L.pledges.modify s fun _ => { isFired := true })[i]? = some q := hq
    rw [List.getElem?_modify] at hq
    by_cases hi : s = i
    · left
      obtain ⟨p, _, rfl⟩ := Option.map_eq_some_iff.1 hq
      simp [hi]
    · right
      simpa [hi] using hq
  constructor
  case kinds =>
    intro i q e hq he
    rcases hcases i q hq with rfl | hq
    · exact absurd he (Multiset.notMem_zero e)
    · exact h.kinds i q e hq he
  case fired =>
    intro i q hq hf
    rcases hcases i q hq with rfl | hq
    · rfl
    · exact h.fired i q hq hf
  case links =>
    intro c a i ha hl
    obtain ⟨q, hq, hor⟩ := h.links c a i ha hl
    show ∃ p, (L.pledges.modify s _)[i]? = some p ∧ _
    rw [List.getElem?_modify, hq]
    by_cases hi : s = i
    · exact ⟨{ isFired := true }, by simp [hi], .inl rfl⟩
    · exact ⟨q, by simp [hi], hor⟩

theorem Pledged.signal (h : L.Pledged) (fired : Bool) :
    Pledged { L with pledges := L.pledges ++ [{ isFired := fired }] } := by
  have hcases : ∀ (i : SignalNo) (q : Pledge),
      (L.pledges ++ [{ isFired := fired }])[i]? = some q →
        q.dues = 0 ∨ L.pledges[i]? = some q := by
    intro i q hq
    rw [List.getElem?_append] at hq
    split at hq
    · exact .inr hq
    · left
      obtain ⟨_, rfl⟩ := List.getElem?_eq_some_iff.1 hq
      simp
  constructor
  case kinds =>
    intro i q e hq he
    rcases hcases i q hq with h0 | hq
    · rw [h0] at he
      exact absurd he (Multiset.notMem_zero e)
    · exact h.kinds i q e hq he
  case fired =>
    intro i q hq hf
    rcases hcases i q hq with h0 | hq
    · exact h0
    · exact h.fired i q hq hf
  case links =>
    intro c a i ha hl
    obtain ⟨q, hq, hor⟩ := h.links c a i ha hl
    exact ⟨q, (List.getElem?_append_left (List.getElem?_eq_some_iff.1 hq).1).trans hq, hor⟩

/-- The slot for a link is due until its signal fires. -/
theorem Step.pledged (h : Step t verdict L L') (hp : L.Pledged) : L'.Pledged := by
  have hx := h.grows
  cases h with
  | root => exact hp.enter ⟨rfl, rfl, rfl, rfl⟩ rfl
  | @linked _ s hlt =>
    have hnew : (L.enter { link := some s, slots := .start 2 }).accounts[L.accounts.length]? =
        some { link := some s, slots := .start 2 } := by rw [accounts_enter, if_pos rfl]
    have hx' : Extends none L (L.enter { link := some s, slots := .start 2 }) :=
      (Extends.of_eq rfl).enter ⟨rfl, rfl, rfl, rfl⟩
    -- the link of the new context is the only one that is not in the books yet
    refine Pledged.entrust (L := L.enter _) hlt ?_ hp.fired ?_
    · rintro i p e hi (he | ⟨rfl, rfl⟩)
      · rcases hp.kinds i p e hi he with ⟨c, a, rfl, ha, hl⟩ | ho
        · obtain ⟨b, hb, hg⟩ := hx'.old ha
          exact .inl ⟨c, b, rfl, hb, hg.link.trans hl⟩
        · exact .inr ho
      · exact .inl ⟨_, _, rfl, hnew, rfl⟩
    · intro c a i ha hl
      rw [accounts_enter] at ha
      split at ha
      · rename_i heq
        obtain rfl := Option.some.inj ha
        obtain rfl := Option.some.inj hl
        exact .inl ⟨rfl, by rw [heq]⟩
      · exact .inr (hp.links c a i ha hl)
  | @child _ p a slots hc hadd hroom =>
    have hmid : (L.recount p slots).Pledged :=
      hp.keep rfl (.of_recount L p slots : Extends none L (L.recount p slots)) (by simp [recount])
    exact hmid.enter ⟨rfl, rfl, rfl, rfl⟩ rfl
  | settle hlt =>
    refine Pledged.entrust hlt ?_ hp.fired fun c a i ha hl => .inr (hp.links c a i ha hl)
    rintro i p e hi (he | ⟨_, rfl⟩)
    · exact hp.kinds i p e hi he
    · exact .inr ⟨_, _, rfl⟩
  | signal => exact hp.signal _
  | resolve _ _ => exact hp.resolve _
  | rejected _ _ _ => exact hp.keep rfl hx (by simp [recount])
  | join _ _ _ => exact hp.keep rfl hx (by simp [recount])
  | leave _ _ => exact hp.keep rfl hx rfl
  | decide _ _ _ => exact hp.keep rfl hx (by simp)
  | before _ => exact hp.keep rfl hx (by simp)
  | answer => exact hp.keep rfl hx (by simp)
  | release _ _ => exact hp.keep (pledges_release _ _ _ _ _) hx (by simp [recount])
  | refuse _ _ => exact hp.keep rfl hx rfl
  | complete _ _ => exact hp.keep (pledges_complete _ _ _ _) hx (by simp)
  | abandon _ => exact hp.keep rfl hx rfl

theorem Steps.pledged (h : Steps t verdict L L') (hp : L.Pledged) : L'.Pledged := by
  induction h with
  | refl => exact hp
  | tail _ hstep ih => exact hstep.pledged ih

theorem pledged_empty : Pledged {} where
  kinds := by intro s p d hs; cases hs
  fired := by intro s p hs; cases hs
  links := by intro c a s ha; cases ha

end Ledger

end FanIn
