import Rulebook.Machine.Value

/-!
# Hosts

A host carries out the calls of a running program. It has a state of its own, and answers a call
by the name, the arguments and the type the call asks for. The recorder is a host that writes
down every call and answers from a table of readings.
-/

namespace Rulebook

/-- A host whose state is `σ`. -/
structure Host (σ : Type) where
  /-- Carries out a call: name, arguments, type asked for. -/
  call : String → List Value → Ty → σ → Value × σ

/-- A call that a host has seen. -/
structure CallRecord where
  name : String
  args : List Value
  deriving DecidableEq

/-- The state of a recording host. -/
structure Recorder where
  /-- The answers to calls, by name; a call without one is answered by a value of the type asked
  for. -/
  readings : Bindings Value
  /-- The calls so far. -/
  log : List CallRecord
  deriving DecidableEq

namespace Recorder

/-- A recorder that has seen no call. -/
def start (readings : Bindings Value) : Recorder := ⟨readings, []⟩

/-- The recording host. -/
def host : Host Recorder where
  call name args ret r :=
    ((r.readings.find? name).getD (.ofTy ret), { r with log := r.log ++ [⟨name, args⟩] })

end Recorder

end Rulebook
