import FanIn.Proofs.Tree.Balance
import FanIn.Proofs.Tree.Lasting

/-!
# Slots that a context keeps once

A context keeps one slot for its own work, until its outcome has been published, and one for its link,
until that has been settled. In the books the first is kept as long as the outcome is undecided, due, or
published with the slot about to be given up; the second as long as it is due. Neither comes back.

Main statements: `Steps.ownKept_le` and `Step.linksOnce`.
-/

namespace FanIn

namespace Due

/-- Whether a context still keeps the slot of its own work for it. -/
def isOwnOf (c : ContextNo) : Due → Bool
  | outcome d _ => d == c
  | slot d share => share == .own && d == c

/-- Whether a context keeps the slot of its link for it. -/
def isLinkOf (c : ContextNo) : Due → Bool
  | outcome .. => false
  | slot d share => share == .link && d == c

theorem owner_of_isLinkOf {c : ContextNo} {d : Due} (h : d.isLinkOf c) : d.owner = c := by
  cases d with
  | outcome => cases h
  | slot d share => exact beq_iff_eq.1 (Bool.and_eq_true_iff.1 h).2

end Due

namespace Ledger

variable {t : Terms} {verdict : Option (ContextNo × Response)} {L L' : Ledger}

/-- What is due that a context keeps the slot of its own work for. -/
def ownDues (L : Ledger) (c : ContextNo) : Nat := L.dues.countP fun d => d.isOwnOf c

/-- What is due that a context keeps the slot of its link for. -/
def linkDues (L : Ledger) (c : ContextNo) : Nat := L.dues.countP fun d => d.isLinkOf c

/-- How many slots a context keeps for its own work. -/
def ownKept (L : Ledger) (c : ContextNo) : Nat :=
  (if L.stateOf c = .pending then 1 else 0) + L.ownDues c

theorem ownDues_owe (L : Ledger) (d : Due) (c : ContextNo) :
    (L.owe d).ownDues c = L.ownDues c + if d.isOwnOf c then 1 else 0 := by
  unfold ownDues
  rw [dues_owe, Multiset.countP_cons]

theorem linkDues_owe (L : Ledger) (d : Due) (c : ContextNo) :
    (L.owe d).linkDues c = L.linkDues c + if d.isLinkOf c then 1 else 0 := by
  unfold linkDues
  rw [dues_owe, Multiset.countP_cons]

theorem stateOf_congr (h : L'.accounts = L.accounts) (c : ContextNo) : L'.stateOf c = L.stateOf c := by
  unfold stateOf
  rw [h]

theorem stateOf_change {d : ContextNo} {f : Account → Account}
    (hf : ∀ a, L.accounts[d]? = some a → (f a).state = a.state) (c : ContextNo) :
    (L.change d f).stateOf c = L.stateOf c := by
  unfold stateOf
  rw [accounts_change]
  split
  · rename_i hdc
    subst hdc
    cases ha : L.accounts[d]? with
    | none => rfl
    | some a => exact hf a ha
  · rfl

theorem stateOf_enter {a : Account} (ha : a.state = .pending) (c : ContextNo) :
    (L.enter a).stateOf c = L.stateOf c := by
  unfold stateOf
  rw [accounts_enter]
  split
  · rename_i hc
    rw [List.getElem?_eq_none (Nat.le_of_eq hc.symm)]
    exact ha
  · rfl

/-- What is due and which outcomes are undecided is all that matters. -/
theorem ownKept_congr {c : ContextNo} (hs : L'.stateOf c = L.stateOf c) (hd : L'.dues = L.dues) :
    L'.ownKept c = L.ownKept c := by
  unfold ownKept ownDues
  rw [hs, hd]

theorem ownKept_owe (L : Ledger) (d : Due) (c : ContextNo) :
    (L.owe d).ownKept c = L.ownKept c + if d.isOwnOf c then 1 else 0 := by
  unfold ownKept
  rw [ownDues_owe, stateOf_congr (accounts_owe L d)]
  omega

theorem ownKept_enter {a : Account} (ha : a.state = .pending) (c : ContextNo) :
    (L.enter a).ownKept c = L.ownKept c := ownKept_congr (stateOf_enter ha c) rfl

theorem ownKept_recount (L : Ledger) (d : ContextNo) (slots : Counter) (c : ContextNo) :
    (L.recount d slots).ownKept c = L.ownKept c :=
  ownKept_congr (stateOf_change (f := fun a => { a with slots := slots }) (fun _ _ => rfl) c) rfl

theorem ownKept_release (L : Ledger) (d : ContextNo) (share : Share) (slots : Counter) (last : Bool)
    (c : ContextNo) : (L.release d share slots last).ownKept c = L.ownKept c := by
  refine (ownKept_congr ?_ (dues_release L d share slots last)).trans rfl
  exact (stateOf_congr (accounts_release L d share slots last) c).trans
    (stateOf_change (f := fun a => { a with slots := slots }) (fun _ _ => rfl) c)

theorem ownKept_complete (L : Ledger) (d : ContextNo) (q : List ContextNo) (p : Option ContextNo)
    (c : ContextNo) : (L.complete d q p).ownKept c = L.ownKept c := by
  have hstate : (L.complete d q p).stateOf c = L.stateOf c :=
    (stateOf_congr (accounts_complete L d q p) c).trans
      (stateOf_change (f := fun a => { a with isComplete := true }) (fun _ _ => rfl) c)
  unfold ownKept
  rw [hstate]
  cases p with
  | none => rfl
  | some p =>
    show _ + (Ledger.owe _ (.slot p (.child d))).ownDues c = _
    rw [ownDues_owe]
    rfl

/-- The decision takes the slot over from the undecided outcome. -/
theorem ownKept_decide {d : ContextNo} {a : Account} {r : Response} (hd : L.accounts[d]? = some a)
    (ha : a.state = .pending) (c : ContextNo) :
    ((L.change d fun a => { a with state := r.state }).owe (.outcome d r)).ownKept c =
      L.ownKept c := by
  rw [ownKept_owe]
  by_cases hdc : d = c
  · subst hdc
    have hnew : (L.change d fun a => { a with state := r.state }).stateOf d = r.state := by
      unfold stateOf
      rw [accounts_change, if_pos rfl, hd]
      rfl
    have hold : L.stateOf d = .pending := (stateOf_of_getElem? hd).trans ha
    have hdues : (L.change d fun a => { a with state := r.state }).ownDues d = L.ownDues d := rfl
    unfold ownKept
    rw [hnew, hold, if_neg r.state_ne_pending, hdues]
    simp [Due.isOwnOf]
    omega
  · have hsame : (L.change d fun a => { a with state := r.state }).stateOf c = L.stateOf c := by
      unfold stateOf
      rw [accounts_change, if_neg hdc]
    rw [ownKept_congr hsame rfl]
    simp [Due.isOwnOf, hdc]

/-- No context comes to keep a slot of its own work again. -/
theorem Step.ownKept_le (h : Step t verdict L L') (c : ContextNo) : L'.ownKept c ≤ L.ownKept c := by
  cases h with
  | root => exact Nat.le_of_eq (ownKept_enter rfl c)
  | @linked _ s hlt =>
    have hdues := dues_entrust (L := L.enter { link := some s, slots := .start 2 }) hlt
      (.slot L.accounts.length .link)
    have hown : ((L.enter { link := some s, slots := .start 2 }).entrust s
        (.slot L.accounts.length .link)).ownKept c = ((L.enter { link := some s, slots := .start 2 }).owe
          (.slot L.accounts.length .link)).ownKept c :=
      ownKept_congr (stateOf_congr ((accounts_entrust _ _ _).trans (accounts_owe _ _).symm) c)
        (hdues.trans (dues_owe _ _).symm)
    rw [hown, ownKept_owe, ownKept_enter rfl]
    simp [Due.isOwnOf]
  | child =>
    rw [ownKept_enter rfl, ownKept_recount]
  | rejected =>
    rw [ownKept_owe, ownKept_recount]
    simp [Due.isOwnOf]
  | @join _ d _ slots => exact Nat.le_of_eq (ownKept_recount L d slots c)
  | leave =>
    rw [ownKept_owe]
    simp [Due.isOwnOf]
  | decide hd ha _ => exact Nat.le_of_eq (ownKept_decide hd ha c)
  | signal => exact Nat.le_of_eq (ownKept_congr rfl (by simp [dues]))
  | settle hlt =>
    exact Nat.le_of_eq (ownKept_congr (stateOf_congr (by simp [owe]) c)
      (by rw [dues_entrust hlt, dues_owe]))
  | resolve => exact Nat.le_of_eq (ownKept_congr rfl (dues_resolve _ _))
  | @before _ d r =>
    exact Nat.le_of_eq (ownKept_congr
      (stateOf_change (f := fun a => { a with before := a.before.or (some r) }) (fun _ _ => rfl) c) rfl)
  | @answer L d r =>
    have hsame : (L.change d fun a => { a with response := a.response.or (some r) }).ownKept c =
        L.ownKept c := ownKept_congr
      (stateOf_change (f := fun a => { a with response := a.response.or (some r) }) (fun _ _ => rfl) c) rfl
    rw [ownKept_owe, ownKept_owe, hsame]
    simp [Due.isOwnOf]
  | @release L d share a last slots =>
    rw [ownKept_release, ownKept_owe]
    exact Nat.le_add_right _ _
  | refuse =>
    rw [ownKept_owe]
    exact Nat.le_add_right _ _
  | complete => exact Nat.le_of_eq (ownKept_complete L _ _ _ c)
  | abandon => exact Nat.le_refl _

theorem Steps.ownKept_le (h : Steps t verdict L L') (c : ContextNo) : L'.ownKept c ≤ L.ownKept c := by
  induction h with
  | refl => exact Nat.le_refl _
  | tail _ hstep ih => exact Nat.le_trans (hstep.ownKept_le c) ih

/-! ## The slot of a link -/

theorem linkDues_congr {c : ContextNo} (hd : L'.dues = L.dues) : L'.linkDues c = L.linkDues c := by
  unfold linkDues
  rw [hd]

theorem linkDues_complete (L : Ledger) (d : ContextNo) (q : List ContextNo) (p : Option ContextNo)
    (c : ContextNo) : (L.complete d q p).linkDues c = L.linkDues c := by
  cases p with
  | none => rfl
  | some p =>
    show (Ledger.owe _ (.slot p (.child d))).linkDues c = _
    rw [linkDues_owe]
    rfl

/-- Nothing is due for a link but what was due before, or what comes with the link of a new context. -/
theorem Step.linkDues_le (h : Step t verdict L L') (c : ContextNo) :
    L'.linkDues c ≤ L.linkDues c ∨ c = L.accounts.length ∧ L'.linkDues c ≤ L.linkDues c + 1 ∧
      ∃ a, L'.accounts[c]? = some a ∧ a.link.isSome := by
  have howe : ∀ (M : Ledger) (d : Due), d.isLinkOf c = false → (M.owe d).linkDues c ≤ M.linkDues c := by
    intro M d hd
    rw [linkDues_owe, hd]
    exact Nat.le_refl _
  cases h with
  | root => exact .inl (Nat.le_refl _)
  | @linked _ s hlt =>
    have hdues := dues_entrust (L := L.enter { link := some s, slots := .start 2 }) hlt
      (.slot L.accounts.length .link)
    have hlink : ((L.enter { link := some s, slots := .start 2 }).entrust s
        (.slot L.accounts.length .link)).linkDues c =
          L.linkDues c + if Due.isLinkOf c (.slot L.accounts.length .link) then 1 else 0 :=
      (linkDues_congr (hdues.trans (dues_owe _ _).symm)).trans (linkDues_owe _ _ c)
    by_cases hc : L.accounts.length = c
    · refine .inr ⟨hc.symm, ?_, { link := some s, slots := .start 2 }, ?_, rfl⟩
      · rw [hlink]
        split <;> omega
      · rw [accounts_entrust, accounts_enter, if_pos hc.symm]
    · left
      rw [hlink]
      simp [Due.isLinkOf, hc]
  | child => exact .inl (Nat.le_refl _)
  | rejected => exact .inl (howe _ _ rfl)
  | join => exact .inl (Nat.le_refl _)
  | leave => exact .inl (howe _ _ rfl)
  | decide => exact .inl (howe _ _ rfl)
  | signal => exact .inl (Nat.le_of_eq (linkDues_congr (by simp [dues])))
  | settle hlt => exact .inl (Nat.le_of_eq (linkDues_congr (by rw [dues_entrust hlt, dues_owe])))
  | resolve => exact .inl (Nat.le_of_eq (linkDues_congr (dues_resolve _ _)))
  | before => exact .inl (Nat.le_refl _)
  | @answer L d r =>
    left
    rw [linkDues_owe, linkDues_owe]
    exact Nat.le_refl _
  | @release L d share a last slots =>
    left
    rw [linkDues_congr (dues_release L d share slots last), linkDues_owe]
    exact Nat.le_add_right _ _
  | refuse =>
    left
    rw [linkDues_owe]
    exact Nat.le_add_right _ _
  | complete => exact .inl (Nat.le_of_eq (linkDues_complete L _ _ _ c))
  | abandon => exact .inl (Nat.le_refl _)

/-- What is due for links is due once, and to contexts that have one. -/
def LinksOnce (L : Ledger) : Prop :=
  ∀ (c : ContextNo) (a : Account), L.accounts[c]? = some a →
    L.linkDues c ≤ if a.link.isSome then 1 else 0

theorem linkDues_eq_zero (h : L.Sane) {c : ContextNo} (hc : L.accounts.length ≤ c) :
    L.linkDues c = 0 :=
  Multiset.countP_eq_zero.2 fun d hd hlink => by
    have howner := h.owners d hd
    rw [Due.owner_of_isLinkOf hlink] at howner
    exact absurd howner (Nat.not_lt.2 hc)

theorem Step.linksOnce (h : Step t verdict L L') (hs : L.Sane) (hl : L.LinksOnce) : L'.LinksOnce := by
  intro c b hb
  rcases h.grows.account c b hb with ⟨a, ha, hg⟩ | ⟨hge, hnew⟩
  · have hlt : c < L.accounts.length := (List.getElem?_eq_some_iff.1 ha).1
    rcases h.linkDues_le c with hle | ⟨heq, -⟩
    · rw [hg.link]
      exact Nat.le_trans hle (hl c a ha)
    · exact absurd heq (Nat.ne_of_lt hlt)
  · have hzero := linkDues_eq_zero hs hge
    rcases h.linkDues_le c with hle | ⟨-, hle, a, ha, hlink⟩
    · exact Nat.le_trans (Nat.le_of_eq (Nat.le_zero.1 (hzero ▸ hle))) (Nat.zero_le _)
    · obtain rfl := Option.some.inj (ha.symm.trans hb)
      rw [if_pos hlink]
      exact Nat.le_trans hle (Nat.succ_le_succ (Nat.le_of_eq hzero))

end Ledger

end FanIn
