import BoundedTables.Decimal.Text

/-!
# Errors

Why a container refuses an operation, why a configuration is refused, and the umbrella over both
for callers that do not distinguish them. The wording of every cause is its `message`.
-/

namespace BoundedTables

open Decimal

/-- What a container can refuse. -/
inductive TableError where
  /-- A construction option was rejected. -/
  | invalidArgument (name reason : String)
  /-- Direct access to a key that is not present. -/
  | keyNotFound
  /-- An end of an empty container was asked for. -/
  | empty
  /-- The container changed while a cursor was enumerating it. -/
  | concurrentModification (expected found : UInt64)
  /-- No slot was free and none could be made. -/
  | capacityExhausted (capacity : Nat)
  deriving DecidableEq, Repr, Inhabited

/-- The wording of a container error. -/
def TableError.message : TableError → String
  | .invalidArgument name reason => s!"Invalid argument `{name}`: {reason}"
  | .keyNotFound => "Key not found"
  | .empty => "Container is empty"
  | .concurrentModification expected found =>
      "Container was modified during enumeration (expected version " ++ natText expected.toNat
        ++ ", found " ++ natText found.toNat ++ ")"
  | .capacityExhausted capacity => s!"No free slot in a table of capacity {natText capacity}"

/-- Why reading a configuration document failed. -/
inductive ParseFailure where
  /-- The file name does not end in a known extension. -/
  | unsupportedExtension (path : String)
  /-- The rendered configuration could not be written. -/
  | cannotWrite (path reason : String)
  /-- The document is malformed, or a value does not have its setting's type. -/
  | malformed (detail : String)
  deriving DecidableEq, Repr, Inhabited

/-- The wording of a parse failure. -/
def ParseFailure.message : ParseFailure → String
  | .unsupportedExtension path => s!"Unsupported file extension for: {path}"
  | .cannotWrite path reason => s!"Cannot write {path}: {reason}"
  | .malformed detail => detail

/-- What is wrong with a configuration. -/
inductive ConfigError where
  | fileNotFound (path : String)
  | parse (failure : ParseFailure)
  | validation (reason : String)
  | outOfRange (key reason : String)
  deriving DecidableEq, Repr, Inhabited

/-- The wording of a configuration error. -/
def ConfigError.message : ConfigError → String
  | .fileNotFound path => s!"Configuration file not found: {path}"
  | .parse failure => s!"Failed to parse configuration file: {failure.message}"
  | .validation reason => s!"Configuration validation error: {reason}"
  | .outOfRange key reason => s!"Configuration value {key} is out of valid range: {reason}"

/-- A container error met while a configuration section was checked. A rejected option becomes
a value out of range under the section's name. -/
def ConfigError.ofTable (section_ : String) : TableError → ConfigError
  | .invalidArgument name reason => .outOfRange (section_ ++ "." ++ name) reason
  | error => .validation (section_ ++ ": " ++ error.message)

/-- Any failure of the library. -/
inductive Failure where
  | config (error : ConfigError)
  | table (error : TableError)
  | io (detail : String)
  | serialization (detail : String)
  | custom (detail : String)
  deriving DecidableEq, Repr, Inhabited

/-- The wording of a failure. -/
def Failure.message : Failure → String
  | .config error => s!"Configuration error: {error.message}"
  | .table error => s!"Table error: {error.message}"
  | .io detail => s!"IO error: {detail}"
  | .serialization detail => s!"Serialization error: {detail}"
  | .custom detail => detail

/-- A failure together with where it happened. -/
structure FailureContext where
  failure : Failure
  component : String
  details : Option String

/-- The wording of a failure in context. -/
def FailureContext.message (c : FailureContext) : String :=
  let head := s!"Error in {c.component}: {c.failure.message}"
  match c.details with
  | some details => s!"{head}\nDetails: {details}"
  | none => head

end BoundedTables
