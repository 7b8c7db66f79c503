import Rulebook.Ty

/-!
# Host libraries

A host library lists the operations that the host of a program carries out. Only an operation
that is not generic and whose signature is made of primitive types can be called from a program.
-/

namespace Rulebook

/-- The signature of a host operation. -/
structure Operation where
  name : String
  /-- The type parameters; an operation that has any is generic. -/
  typeParams : List String
  params : List Ty
  ret : Ty
  deriving DecidableEq

/-- Whether programs can call the operation. -/
def Operation.isCallable (op : Operation) : Bool :=
  op.typeParams.isEmpty && op.ret.isPrimitive && op.params.all Ty.isPrimitive

/-- A named list of host operations. -/
structure Library where
  name : String
  operations : List Operation
  deriving DecidableEq

/-- The first operation of the given name. -/
def Library.find? (lib : Library) (name : String) : Option Operation :=
  lib.operations.find? fun op => op.name = name

end Rulebook
