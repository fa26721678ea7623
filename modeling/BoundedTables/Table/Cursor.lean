import BoundedTables.Error

/-!
# Cursors

A cursor is a detached position in a container. It remembers the container's version, which every
mutation changes, and refuses to step once the two differ.
-/

namespace BoundedTables.Table

/-- A position in a container, with the number of entries not yet yielded. -/
structure Cursor where
  version : UInt64
  position : Option Nat
  remaining : Nat
  deriving Inhabited

namespace Cursor

/-- A cursor that has run past the last entry. -/
def isFinished (c : Cursor) : Bool := c.remaining = 0 ∨ c.position = none

/-- Refuse to work on a container that changed. -/
def check (c : Cursor) (current : UInt64) : Except TableError Unit :=
  if c.version = current then .ok () else .error (.concurrentModification c.version current)

/-- Move on after one entry was yielded. -/
def step (c : Cursor) (next : Option Nat) : Cursor :=
  { c with position := next, remaining := c.remaining - 1 }

/-- Move past the last entry. -/
def finish (c : Cursor) : Cursor := { c with position := none, remaining := 0 }

/-- Advance in a container of a given version. `seek` looks up the entry at or after a position
together with the position behind it. -/
def advance {α : Type} (c : Cursor) (current : UInt64) (seek : Nat → Option (α × Option Nat)) :
    Except TableError (Option α) × Cursor :=
  match c.check current with
  | .error e => (.error e, c)
  | .ok () =>
      if c.isFinished then (.ok none, c)
      else
        match c.position.bind seek with
        | some (entry, next) => (.ok (some entry), c.step next)
        | none => (.ok none, c.finish)

end Cursor

end BoundedTables.Table
