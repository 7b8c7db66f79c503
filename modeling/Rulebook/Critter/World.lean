import Rulebook.Library

/-!
# The critter world

The operations that the world of critters offers to programs: sensors, which give a reading,
actions, which a critter takes, and sensors that look in a direction or up to a bound.
-/

namespace Rulebook.Critter

/-- Sensors without parameters. -/
def sensors : List String :=
  ["memsize", "defense", "offense", "size", "energy", "pass", "posture", "tag", "smell"]

/-- Actions without parameters. -/
def actions : List String :=
  ["waitFor", "forward", "backward", "left", "right", "eat", "attack", "grow", "bud", "mate"]

/-- Sensors that take a direction or a bound. -/
def directedSensors : List String := ["nearby", "ahead", "random"]

/-- An operation that is not generic. -/
def plain (params : List Ty) (ret : Ty) (name : String) : Operation :=
  { name, typeParams := [], params, ret }

/-- The library of the critter world. -/
def library : Library where
  name := "critter"
  operations :=
    sensors.map (plain [] .int) ++ actions.map (plain [] .void) ++ [plain [.int] .void "serve"] ++
      directedSensors.map (plain [.int] .int)

end Rulebook.Critter
