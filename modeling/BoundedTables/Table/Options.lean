import BoundedTables.Hashing.Policy
import BoundedTables.Sizing.LoadFactor

/-!
# Construction options

What every chained container is built from. Options are plain values that may be wrong; checking
them yields the exact load factor the container works with, or names the first bad option.
-/

namespace BoundedTables

open Decimal Sizing Hashing

/-- Whether a container may grow past its initial capacity. -/
inductive CapacityMode where
  /-- The capacity is only a sizing hint. -/
  | dynamic
  /-- The capacity is a maximum; a new key past it evicts another one. -/
  | fixed
  deriving DecidableEq, Repr

/-- The name of a mode in settings. -/
def CapacityMode.name : CapacityMode → String
  | .dynamic => "dynamic"
  | .fixed => "fixed"

/-- The mode with a name. -/
def CapacityMode.ofName? (name : String) : Option CapacityMode :=
  [CapacityMode.dynamic, .fixed].find? fun m => m.name == name

/-- The name of a mode in diagnostics. -/
def CapacityMode.label : CapacityMode → String
  | .dynamic => "Dynamic"
  | .fixed => "Fixed"

/-- Options of a chained container. -/
structure TableOptions where
  capacity : Nat
  mode : CapacityMode
  loadFactor : Float
  hashing : HashingPolicy

/-- The defaults: sixteen entries, growing, three quarters full. -/
def TableOptions.standard : TableOptions := ⟨16, .dynamic, 0.75, .deterministic⟩

/-- Zero and anything above the largest capacity is rejected. -/
def checkCapacity (name : String) (capacity : Nat) : Except TableError Unit :=
  if capacity = 0 then .error (.invalidArgument name "must be greater than 0")
  else if maxCapacity < capacity then
    .error (.invalidArgument name
      s!"{natText capacity} exceeds the maximum of {natText maxCapacity}")
  else .ok ()

/-- A load factor must be strictly between zero and one. -/
def checkLoadFactor (x : Float) : Except TableError LoadFactor :=
  match LoadFactor.ofFloat? x with
  | some f => .ok f
  | none =>
      .error (.invalidArgument "load_factor"
        s!"must be strictly between 0 and 1, got {floatText x}")

/-- A rate must be strictly between zero and one. -/
def checkRate (x : Float) : Except TableError Unit :=
  if Binary64.isProperFraction x then .ok ()
  else
    .error (.invalidArgument "false_positive_rate"
      s!"must be strictly between 0 and 1, got {floatText x}")

/-- Check the capacity, the load factor and the hashing policy, in this order. -/
def TableOptions.check (o : TableOptions) : Except TableError LoadFactor := do
  checkCapacity "capacity" o.capacity
  let f ← checkLoadFactor o.loadFactor
  o.hashing.validate
  pure f

end BoundedTables
