import FanIn.Proofs.Tree.Descent
import FanIn.Proofs.Tree.Queue

/-!
# What is seen of contexts

The *face* of a context is what there is to see of it: its parent, how far its outcome is decided, its
counter and its channels. What a call has done to the faces of all contexts by some moment is a `Change`:
how far it has told the outcome of the context it is about, who has given up a slot, and who has completed.

Main statements: `Shows.release` and its companions, by which one more step is one more entry of the
change, and nothing else is different.
-/

namespace FanIn

/-- What there is to see of a context. -/
structure Face where
  parent : Option ContextNo
  state : State
  slots : Counter
  before : Channel Response Observer
  response : Channel Response Observer
  completion : Channel Unit Observer

def Context.face (x : Context) : Face where
  parent := x.parent
  state := x.state
  slots := x.slots
  before := x.before
  response := x.response
  completion := x.completion

/-- What a call that is about one context has done so far. -/
structure Change where
  /-- How far the outcome of that context has been decided, and what has been told of it. -/
  state : Option State := none
  before : Option Response := none
  response : Option Response := none
  /-- The contexts that have given up a slot, one each. -/
  released : List ContextNo := []
  /-- The contexts whose completion has fired. -/
  completed : List ContextNo := []

/-- What the changes by a call about context `c` make of the face of context `d`. -/
def Change.apply (k : Change) (c d : ContextNo) (f : Face) : Face where
  parent := f.parent
  state := if d = c then k.state.getD f.state else f.state
  slots := if d ∈ k.released then ⟨f.slots.pending - 1⟩ else f.slots
  before := if d = c then (k.before.map Channel.fired).getD f.before else f.before
  response := if d = c then (k.response.map Channel.fired).getD f.response else f.response
  completion := if d ∈ k.completed then .fired () else f.completion

namespace World

def face? (w : World) (c : ContextNo) : Option Face := (w.contexts[c]?).map Context.face

/-- World `v` is world `w` after these changes. -/
structure Shows (w : World) (c : ContextNo) (k : Change) (v : World) : Prop where
  faces : ∀ d, v.face? d = (w.face? d).map (k.apply c d)
  completions : v.completions = w.completions ++ k.completed

variable {w v v' : World} {c : ContextNo} {k : Change}

/-! ## What leaves the faces alone -/

theorem face?_congr (h : v'.contexts = v.contexts) (d : ContextNo) : v'.face? d = v.face? d := by
  rw [face?, h, face?]

theorem face?_of {d : ContextNo} {x : Context} (h : v.contexts[d]? = some x) : v.face? d = some x.face := by
  rw [face?, h]
  rfl

/-- A change of one context, as it is seen. -/
theorem face?_modifyContext {a : ContextNo} {f : Context → Context} {g : Face → Face}
    (h : ∀ x, (f x).face = g x.face) (d : ContextNo) :
    (v.modifyContext a f).face? d = if a = d then (v.face? d).map g else v.face? d := by
  rw [face?, getElem?_modifyContext, face?]
  split
  · rw [Option.map_map, Option.map_map]
    congr 1
    exact funext h
  · rfl

theorem face?_modifyContext_same {a : ContextNo} {f : Context → Context} (h : ∀ x, (f x).face = x.face)
    (d : ContextNo) : (v.modifyContext a f).face? d = v.face? d := by
  rw [face?_modifyContext (g := id) h, Option.map_id]
  exact ite_self _

@[simp] theorem face?_deliver (ch : ChannelRef) (value : Value) (os : List Observer) (d : ContextNo) :
    (v.deliver ch value os).face? d = v.face? d := rfl

@[simp] theorem face?_push (fs : List Frame) (d : ContextNo) : (v.push fs).face? d = v.face? d := rfl

@[simp] theorem face?_log (l : Log.Level) (m : String) (d : ContextNo) : (v.log l m).face? d = v.face? d :=
  face?_congr (contexts_log v l m) d

theorem face?_destroy (r : Ref) (d : ContextNo) : (v.destroy r).face? d = v.face? d := by
  cases r with
  | signal s => rfl
  | context a =>
    simp only [destroy]
    split
    · rfl
    · rw [face?_modifyContext_same (by intro x; rfl)]
      exact face?_congr (contexts_farewell v a _ true) d

@[simp] theorem face?_releaseAll (refs : List Ref) (d : ContextNo) :
    (v.releaseAll refs).face? d = v.face? d :=
  releaseAll_induction (P := fun u => u.face? d = v.face? d)
    (fun _ r h _ _ => (face?_destroy r d).trans h) rfl refs

@[simp] theorem face?_reportBranch (a d : ContextNo) : (v.reportBranch a).face? d = v.face? d := by
  unfold reportBranch
  split <;> rfl

theorem face?_returnCall (r : Reply) (kept : List Ref) (d : ContextNo) :
    (v.returnCall r kept).face? d = v.face? d := by
  unfold returnCall
  dsimp only
  rw [face?_releaseAll]
  split
  · exact face?_modifyContext_same (by intro x; rfl) d
  · rfl
  · rfl

theorem face?_finish (thrown : Option Failure) (d : ContextNo) : (v.finish thrown).face? d = v.face? d := by
  unfold finish
  split
  · dsimp only
    split
    · rfl
    · exact face?_log _ _ d
  · rfl

/-- Code of a client is called. -/
theorem face?_notify {o : Observer} (ho : o.isClients = true) (ch : ChannelRef) (replay : Bool)
    (value : Value) (d : ContextNo) : (v.notify ch replay value o).face? d = v.face? d := by
  cases o with
  | client label keeps => rfl
  | empty => rfl
  | settleLink c => cases ho
  | settleError c e s => cases ho

/-! ## What changes them -/

/-- The first channel of a context fires. -/
theorem face?_fireBefore {c : ContextNo} (h : v.Waits (.before c)) (r : Response) (d : ContextNo) :
    (v.fireBefore c r).face? d =
      if c = d then (v.face? d).map fun f => { f with before := .fired r } else v.face? d := by
  rcases v.fireBefore_cases c r with ⟨hnot, _⟩ | ⟨x, _, _, heq⟩
  · exact absurd h hnot
  · rw [heq, ← face?_modifyContext (f := fun x => { x with before := .fired r }) fun _ => rfl]
    rfl

/-- The second one fires. -/
theorem face?_fireResponse {c : ContextNo} (h : v.Waits (.response c)) (r : Response) (d : ContextNo) :
    (v.fireResponse c r).face? d =
      if c = d then (v.face? d).map fun f => { f with response := .fired r } else v.face? d := by
  rcases v.fireResponse_cases c r with ⟨hnot, _⟩ | ⟨x, _, _, heq⟩
  · exact absurd h hnot
  · rw [heq, ← face?_modifyContext (f := fun x => { x with response := .fired r }) fun _ => rfl]
    rfl

/-- The first context of the queue completes. -/
theorem face?_completeNext {a : ContextNo} {q : List ContextNo} {x : Context}
    (hq : v.queue = some (a :: q)) (hx : v.contexts[a]? = some x) (hopen : x.isComplete = false)
    (d : ContextNo) : v.completeNext.face? d =
      if a = d then (v.face? d).map fun f => { f with completion := .fired () } else v.face? d := by
  rw [completeNext_eq hq hx hopen, face?_deliver, face?_push,
    face?_modifyContext (g := fun f => { f with completion := .fired () }) fun _ => rfl, face?_log]
  rfl

/-- A slot is given up. -/
theorem face?_giveUpSlot {a : ContextNo} {share : Share} {last : Bool} {slots : Counter}
    (hrel : ((v.contexts[a]?).bind fun x => x.slots.release) = some (last, slots)) (d : ContextNo) :
    (v.giveUpSlot a share).face? d =
      if a = d then (v.face? d).map fun f => { f with slots := slots } else v.face? d := by
  rw [← face?_modifyContext (f := fun x => { x with slots := slots }) fun _ => rfl]
  refine face?_congr ?_ d
  unfold giveUpSlot
  rw [hrel]
  dsimp only
  split
  · split <;> rfl
  · rfl

/-- A parent is told. -/
theorem face?_tellParent {a p : ContextNo} {last : Bool} {slots : Counter}
    (hrel : ((v.contexts[p]?).bind fun x => x.slots.release) = some (last, slots)) (d : ContextNo) :
    (v.tellParent a (some p)).face? d =
      if p = d then (v.face? d).map fun f => { f with slots := slots } else v.face? d := by
  rw [← face?_modifyContext (f := fun x => { x with slots := slots }) fun _ => rfl]
  unfold tellParent
  dsimp only
  rw [hrel]
  dsimp only
  split <;> exact face?_releaseAll _ d

/-- Only clients wait at the channels of contexts. -/
theorem clients_of_observers {told : ContextNo → Bool} (h : v.Tidy told) {ch : ChannelRef} {a : ContextNo}
    (hch : ch.owner = .context a) : ∀ o ∈ (v.observers ch).map Prod.snd, o.isClients = true := by
  intro o ho
  obtain ⟨e, he, rfl⟩ := List.mem_map.1 ho
  have hfind : ∀ {b : ContextNo} {l : Context → List (UInt64 × Observer)},
      e ∈ (v.contexts[b]?).elim [] l → ∃ x, v.contexts[b]? = some x ∧ e ∈ l x := by
    intro b l he
    cases hx : v.contexts[b]? with
    | none => simp [hx] at he
    | some x => exact ⟨x, rfl, by simpa [hx] using he⟩
  cases ch with
  | signal s => cases hch
  | before b =>
    obtain ⟨x, hx, he⟩ := hfind he
    exact (h.contexts b x hx).clients e (List.mem_append_left _ (List.mem_append_left _ he))
  | response b =>
    obtain ⟨x, hx, he⟩ := hfind he
    exact (h.contexts b x hx).clients e (List.mem_append_left _ (List.mem_append_right _ he))
  | completion b =>
    obtain ⟨x, hx, he⟩ := hfind he
    exact (h.contexts b x hx).clients e (List.mem_append_right _ he)

/-! ## One more change -/

theorem shows_self (w : World) (c : ContextNo) : w.Shows c {} w := by
  refine ⟨fun d => ?_, (List.append_nil _).symm⟩
  cases h : w.face? d with
  | none => rfl
  | some f => simp [Change.apply]

/-- What is seen of a context, read off what was seen of it before. -/
theorem Shows.exists_face (h : w.Shows c k v) {d : ContextNo} {y : Context} (hy : v.contexts[d]? = some y) :
    ∃ x, w.contexts[d]? = some x ∧ y.face = k.apply c d x.face := by
  have hface := h.faces d
  rw [face?_of hy, face?, Option.map_map] at hface
  obtain ⟨x, hx, heq⟩ := Option.map_eq_some_iff.1 hface.symm
  exact ⟨x, hx, heq.symm⟩

/-- Nothing is seen of what has been done. -/
theorem Shows.same (h : w.Shows c k v) (hf : ∀ d, v'.face? d = v.face? d)
    (hc : v'.completions = v.completions) : w.Shows c k v' :=
  ⟨fun d => (hf d).trans (h.faces d), hc.trans h.completions⟩

/-- One more entry in the changes, seen at one context. -/
theorem Shows.step (h : w.Shows c k v) {k' : Change} {a : ContextNo} {g : Face → Face}
    (hf : ∀ d, v'.face? d = if a = d then (v.face? d).map g else v.face? d)
    (hg : ∀ f, w.face? a = some f → g (k.apply c a f) = k'.apply c a f)
    (hk : ∀ d ≠ a, k'.apply c d = k.apply c d)
    (hc : v'.completions = w.completions ++ k'.completed) : w.Shows c k' v' := by
  refine ⟨fun d => ?_, hc⟩
  rw [hf, h.faces]
  split
  · rename_i had
    subst had
    cases hface : w.face? a with
    | none => rfl
    | some f => exact congrArg some (hg f hface)
  · rename_i hda
    rw [hk d (Ne.symm hda)]

/-- A context gives up a slot, which it has not done before. -/
theorem Shows.release (h : w.Shows c k v) {a : ContextNo} {y : Context} {last : Bool} {slots : Counter}
    (hy : v.contexts[a]? = some y) (ha : a ∉ k.released) (hrel : y.slots.release = some (last, slots))
    (hf : ∀ d, v'.face? d = if a = d then (v.face? d).map fun f => { f with slots := slots } else v.face? d)
    (hc : v'.completions = v.completions) :
    w.Shows c { k with released := k.released ++ [a] } v' := by
  refine h.step hf (fun f hface => ?_) (fun d hd => ?_) (hc.trans h.completions)
  · obtain ⟨x, hx, heq⟩ := h.exists_face hy
    obtain rfl : x.face = f := Option.some.inj ((face?_of hx).symm.trans hface)
    have hsame : y.slots = x.slots := by
      have := congrArg Face.slots heq
      rwa [Change.apply, if_neg ha] at this
    have hslots : slots = ⟨x.slots.pending - 1⟩ := by
      rw [hsame, Counter.release] at hrel
      split at hrel
      · exact ((Prod.mk.inj (Option.some.inj hrel)).2).symm
      · cases hrel
    simp [Change.apply, hslots, Context.face]
  · simp [Change.apply, hd, funext_iff]

/-- The completion of a context fires. -/
theorem Shows.complete (h : w.Shows c k v) {a : ContextNo}
    (hf : ∀ d, v'.face? d =
      if a = d then (v.face? d).map fun f => { f with completion := .fired () } else v.face? d)
    (hc : v'.completions = v.completions ++ [a]) :
    w.Shows c { k with completed := k.completed ++ [a] } v' := by
  refine h.step hf (fun f _ => ?_) (fun d hd => ?_) ?_
  · simp [Change.apply]
  · simp [Change.apply, hd, funext_iff]
  · rw [hc, h.completions, List.append_assoc]

/-- The outcome is decided. -/
theorem Shows.decide (h : w.Shows c k v) (s : State)
    (hf : ∀ d, v'.face? d = if c = d then (v.face? d).map fun f => { f with state := s } else v.face? d)
    (hc : v'.completions = v.completions) : w.Shows c { k with state := some s } v' := by
  refine h.step hf (fun f _ => ?_) (fun d hd => ?_) (hc.trans h.completions)
  · simp [Change.apply]
  · simp [Change.apply, hd, funext_iff]

/-- The outcome is told on the first channel. -/
theorem Shows.tellBefore (h : w.Shows c k v) (r : Response)
    (hf : ∀ d, v'.face? d =
      if c = d then (v.face? d).map fun f => { f with before := .fired r } else v.face? d)
    (hc : v'.completions = v.completions) : w.Shows c { k with before := some r } v' := by
  refine h.step hf (fun f _ => ?_) (fun d hd => ?_) (hc.trans h.completions)
  · simp [Change.apply]
  · simp [Change.apply, hd, funext_iff]

/-- The outcome is told on the second channel. -/
theorem Shows.tellResponse (h : w.Shows c k v) (r : Response)
    (hf : ∀ d, v'.face? d =
      if c = d then (v.face? d).map fun f => { f with response := .fired r } else v.face? d)
    (hc : v'.completions = v.completions) : w.Shows c { k with response := some r } v' := by
  refine h.step hf (fun f _ => ?_) (fun d hd => ?_) (hc.trans h.completions)
  · simp [Change.apply]
  · simp [Change.apply, hd, funext_iff]

end World

end FanIn
