import FanIn.Text

/-!
# Settings of a context tree

The settings are given to a root and shared by all its descendants. They can be read from two
environment variables, each of which may be absent.
-/

namespace FanIn

/-- What a context tree is configured with. -/
structure Settings where
  /-- Whether every context records the processors it passes through. -/
  trace : Bool := false
  /-- The running server instance, noted on every context it creates. -/
  serverId : String := "tributary"
  deriving DecidableEq, Repr, Inhabited

namespace Settings

/-- The spellings that switch a flag on; every other text switches it off. -/
def onSpellings : List String := ["1", "true", "TRUE", "True", "on", "ON", "yes"]

def parseFlag (value : String) : Bool := onSpellings.contains value

/-- The settings that two environment variables ask for. An absent variable, and an empty server
id, leave the default. -/
def ofEnvironment (trace serverId : Option String) : Settings where
  trace := match trace with
    | some value => parseFlag (Text.visible value)
    | none => false
  serverId := match serverId with
    | some value =>
      let value := Text.visible value
      if value.isEmpty then ({} : Settings).serverId else value
    | none => ({} : Settings).serverId

end Settings

end FanIn
