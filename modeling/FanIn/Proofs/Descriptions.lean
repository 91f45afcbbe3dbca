import FanIn.Failure

/-!
# What a failure says of the failures in it

The message of a failed exception handler quotes the descriptions of two further failures, and these may
quote others in their turn. A description is cut off at the first NUL character of the message it
describes, but never has one itself, so what is quoted cuts nothing off that comes after it.

Main statement: `describes_nested`. A NUL in the id of a context cuts off the description of the failure
that bears this id; whatever encloses that failure is there to its end. Where no id on the way down has
one, the description of a failure is quoted in full, however deep it lies.
-/

namespace FanIn.Failure

open Text (visible IsPlain isPlain_append)

/-! ## Descriptions have no NUL characters -/

/-- The name of the type of a failure, if it belongs to the standard hierarchy. -/
def typeName? : Failure → Option String
  | .standard kind _ => some kind.typeName
  | .illegalState _ => some "tributary::illegal_state_error"
  | .handlerFailed .. => some "tributary::handler_failure"
  | .outOfMemory => some "std::bad_alloc"
  | .unspecified => some "std::exception"
  | .foreign => none

theorem isPlain_typeName (k : StandardKind) : IsPlain k.typeName := by
  cases k with
  | other name => exact name.plain
  | _ => decide

theorem isPlain_typeName? {f : Failure} {t : String} (h : f.typeName? = some t) : IsPlain t := by
  cases f with
  | standard kind m =>
    obtain rfl := Option.some.inj h
    exact isPlain_typeName kind
  | foreign => cases h
  | _ =>
    obtain rfl := Option.some.inj h
    decide

theorem describe_of_typeName? {f : Failure} {t : String} (h : f.typeName? = some t) :
    f.describe = t ++ ": " ++ f.what := by
  cases f with
  | standard kind m =>
    obtain rfl := Option.some.inj h
    rfl
  | illegalState m =>
    obtain rfl := Option.some.inj h
    rfl
  | handlerFailed id given raised =>
    obtain rfl := Option.some.inj h
    rfl
  | outOfMemory =>
    have hwhat : what .outOfMemory = "std::bad_alloc" := Text.visible_eq_self (by decide)
    obtain rfl := Option.some.inj h
    rw [hwhat]
    rfl
  | unspecified =>
    have hwhat : what .unspecified = "std::exception" := Text.visible_eq_self (by decide)
    obtain rfl := Option.some.inj h
    rw [hwhat]
    rfl
  | foreign => cases h

theorem typeName?_eq_none {f : Failure} : f.typeName? = none ↔ f = .foreign := by
  cases f <;> simp [typeName?]

theorem describe_foreign : describe .foreign = outsideHierarchy := rfl

theorem isPlain_describe (f : Failure) : IsPlain f.describe := by
  cases ht : f.typeName? with
  | none =>
    rw [typeName?_eq_none.1 ht, describe_foreign]
    decide
  | some t =>
    rw [describe_of_typeName? ht]
    exact isPlain_append.2
      ⟨isPlain_append.2 ⟨isPlain_typeName? ht, by decide⟩, Text.isPlain_visible _⟩

theorem isPlain_describe? (e : Option Failure) : IsPlain (describe? e) := by
  cases e with
  | none => decide
  | some f => exact isPlain_describe f

theorem isPlain_describeRaised (e : Option Failure) : IsPlain (describeRaised e) := by
  cases e with
  | none => decide
  | some f => exact isPlain_describe f

/-! ## The failure of an exception handler -/

/-- How the message of a failed exception handler begins. -/
def lead : String := "exception handler failed for context "

/-- How it goes on after the id of the context. -/
def sequel (given raised : String) : String := " while handling [" ++ given ++ "]: " ++ raised

theorem handlerText_eq (id given raised : String) :
    handlerText id given raised = lead ++ id ++ sequel given raised := by
  unfold handlerText lead sequel
  simp only [String.append_assoc]

theorem message_handlerFailed (id : String) (given raised : Option Failure) :
    (handlerFailed id given raised).message = lead ++ id ++ sequel (describe? given) (describeRaised raised) :=
  handlerText_eq id (describe? given) (describeRaised raised)

theorem isPlain_lead : IsPlain lead := by decide

theorem isPlain_sequel (given raised : Option Failure) :
    IsPlain (sequel (describe? given) (describeRaised raised)) := by
  unfold sequel
  simp only [isPlain_append, isPlain_describe?, isPlain_describeRaised, and_true]
  decide

/-- What is read of it is all of it, or goes no further than into the id. -/
theorem what_handlerFailed (id : String) (given raised : Option Failure) :
    (handlerFailed id given raised).what =
      if IsPlain id then lead ++ id ++ sequel (describe? given) (describeRaised raised)
      else lead ++ visible id := by
  rw [what, message_handlerFailed]
  split
  · rename_i hid
    exact Text.visible_eq_self
      (isPlain_append.2 ⟨isPlain_append.2 ⟨isPlain_lead, hid⟩, isPlain_sequel given raised⟩)
  · rename_i hid
    rw [String.append_assoc, Text.visible_append_of_isPlain isPlain_lead,
      Text.visible_append (Decidable.not_not.1 hid)]

/-! ## Failures within failures -/

/-- One of the two places for a failure in the failure of an exception handler. -/
inductive Place where
  | given
  | raised
  deriving DecidableEq, Repr

/-- The failure of an exception handler, with one of its places left open. -/
structure Layer where
  contextId : String
  place : Place
  /-- What is in the other place. -/
  other : Option Failure

/-- Puts a failure into the place left open. -/
def Layer.fill (l : Layer) (f : Failure) : Failure :=
  match l.place with
  | .given => .handlerFailed l.contextId (some f) l.other
  | .raised => .handlerFailed l.contextId l.other (some f)

/-- What a layer says before it comes to the failure in its place. -/
def Layer.before (l : Layer) : String :=
  match l.place with
  | .given => lead ++ l.contextId ++ " while handling ["
  | .raised => lead ++ l.contextId ++ " while handling [" ++ describe? l.other ++ "]: "

/-- What it says after that. -/
def Layer.after (l : Layer) : String :=
  match l.place with
  | .given => "]: " ++ describeRaised l.other
  | .raised => ""

/-- A failure within layers, the outermost first. -/
def within : List Layer → Failure → Failure
  | [], f => f
  | l :: layers, f => l.fill (within layers f)

/-- What the descriptions of some layers say before they come to the failure within. -/
def opening : List Layer → String
  | [] => ""
  | l :: layers => "tributary::handler_failure: " ++ l.before ++ opening layers

/-- What they say after that. -/
def closing : List Layer → String
  | [] => ""
  | l :: layers => closing layers ++ l.after

@[simp] theorem opening_nil : opening [] = "" := rfl

@[simp] theorem opening_cons (l : Layer) (layers : List Layer) :
    opening (l :: layers) = "tributary::handler_failure: " ++ l.before ++ opening layers := rfl

@[simp] theorem closing_nil : closing [] = "" := rfl

@[simp] theorem closing_cons (l : Layer) (layers : List Layer) :
    closing (l :: layers) = closing layers ++ l.after := rfl

theorem message_fill (l : Layer) (f : Failure) : (l.fill f).message = l.before ++ f.describe ++ l.after := by
  obtain ⟨id, place, other⟩ := l
  cases place with
  | given =>
    unfold Layer.fill Layer.before Layer.after
    rw [message_handlerFailed, describe?_some]
    unfold sequel
    simp only [String.append_assoc]
  | raised =>
    unfold Layer.fill Layer.before Layer.after
    rw [message_handlerFailed, describeRaised_some]
    unfold sequel
    simp only [String.append_assoc, String.append_empty]

theorem what_fill {l : Layer} (h : IsPlain l.contextId) (f : Failure) :
    (l.fill f).what = l.before ++ f.describe ++ l.after := by
  obtain ⟨id, place, other⟩ := l
  rw [← message_fill]
  cases place with
  | given =>
    have hwhat := what_handlerFailed id (some f) other
    rwa [if_pos h, ← message_handlerFailed] at hwhat
  | raised =>
    have hwhat := what_handlerFailed id other (some f)
    rwa [if_pos h, ← message_handlerFailed] at hwhat

theorem describe_fill {l : Layer} (h : IsPlain l.contextId) (f : Failure) :
    (l.fill f).describe = "tributary::handler_failure: " ++ l.before ++ f.describe ++ l.after := by
  have htype : (l.fill f).typeName? = some "tributary::handler_failure" := by
    unfold Layer.fill
    split <;> rfl
  rw [describe_of_typeName? htype, what_fill h]
  simp only [String.append_assoc]
  rfl

theorem describe_within {layers : List Layer} (h : ∀ l ∈ layers, IsPlain l.contextId) (f : Failure) :
    (within layers f).describe = opening layers ++ f.describe ++ closing layers := by
  induction layers with
  | nil => rw [opening_nil, closing_nil, String.empty_append, String.append_empty, within]
  | cons l layers ih =>
    have hrest := ih fun x hx => h x (List.mem_cons_of_mem l hx)
    rw [within, describe_fill (h l List.mem_cons_self), hrest, opening_cons, closing_cons]
    simp only [String.append_assoc]

/-- **What lies in a failure cuts off nothing of what encloses it.**

* A failure is described by its type and what is read of its message, up to the first NUL character; no
  failure and one from outside the standard hierarchy are described by fixed texts.
* The message of a failed exception handler holds the id of the context and after it the whole descriptions
  of the two failures, or that the handler gave no signal; its NUL characters are those of the id. All of
  it is read if the id has none, and otherwise what comes before the first one of the id.
* Within layers whose ids have none, a failure is described in full, and what the layers say is the same
  whatever the failure is. -/
theorem describes_nested :
    (describe? none = "<no exception>" ∧ describeRaised none = "handler returned no signal" ∧
      describe .foreign = "<exception not derived from std::exception>" ∧
      ∀ f, describe? (some f) = f.describe ∧ describeRaised (some f) = f.describe ∧
        (f = .foreign ∨ ∃ t, f.typeName? = some t ∧ f.describe = t ++ ": " ++ f.what)) ∧
    (∀ f : Failure, IsPlain f.what ∧
      ∃ rest, f.message = f.what ++ rest ∧ (rest = "" ∨ ∃ t, rest = "\x00" ++ t)) ∧
    (∀ id given raised, ∃ before after, IsPlain before ∧ IsPlain after ∧
      before = "exception handler failed for context " ∧
      after = " while handling [" ++ describe? given ++ "]: " ++ describeRaised raised ∧
      (handlerFailed id given raised).message = before ++ id ++ after ∧
      (handlerFailed id given raised).what =
        if IsPlain id then before ++ id ++ after else before ++ visible id) ∧
    ∀ (layers : List Layer) (f : Failure), (∀ l ∈ layers, IsPlain l.contextId) →
      (within layers f).describe = opening layers ++ f.describe ++ closing layers ∧
      ∀ l : Layer, IsPlain l.contextId → (within (l :: layers) f).what =
        l.before ++ opening layers ++ f.describe ++ closing layers ++ l.after := by
  refine ⟨⟨rfl, rfl, rfl, fun f => ⟨rfl, rfl, ?_⟩⟩, fun f => ?_, fun id given raised => ?_, ?_⟩
  · cases ht : f.typeName? with
    | none => exact .inl (typeName?_eq_none.1 ht)
    | some t => exact .inr ⟨t, rfl, describe_of_typeName? ht⟩
  · exact ⟨Text.isPlain_visible f.message, Text.exists_unseen f.message⟩
  · exact ⟨lead, sequel (describe? given) (describeRaised raised), isPlain_lead, isPlain_sequel given raised,
      rfl, rfl, message_handlerFailed id given raised, what_handlerFailed id given raised⟩
  · intro layers f hplain
    refine ⟨describe_within hplain f, fun l hl => ?_⟩
    rw [within, what_fill hl, describe_within hplain]
    simp only [String.append_assoc]

/-- The handler of `a` fails on what the handler of `b` failed on, whose own failure is cut off twice: within
the message of the first error, and within its id. -/
def cutOffTwice : Failure :=
  within [⟨"a", .given, none⟩, ⟨"b", .raised, some .outOfMemory⟩]
    (.handlerFailed "c\x00d" (some (.standard .runtimeError "x\x00y")) none)

theorem describes_nested_cut :
    (∀ l ∈ [(⟨"b", .raised, some .outOfMemory⟩ : Layer)], IsPlain l.contextId) ∧ IsPlain "a" ∧
      cutOffTwice.what = "exception handler failed for context a while handling [" ++
        "tributary::handler_failure: exception handler failed for context b while handling [" ++
        "std::bad_alloc: std::bad_alloc]: " ++
        "tributary::handler_failure: exception handler failed for context c" ++
        "]: handler returned no signal" := by
  have hb : ∀ l ∈ [(⟨"b", .raised, some .outOfMemory⟩ : Layer)], IsPlain l.contextId := by decide
  have ha : IsPlain "a" := by decide
  have hwhat := (describes_nested.2.2.2 _
    (.handlerFailed "c\x00d" (some (.standard .runtimeError "x\x00y")) none) hb).2 ⟨"a", .given, none⟩ ha
  exact ⟨hb, ha, hwhat.trans (by decide +kernel)⟩

end FanIn.Failure
