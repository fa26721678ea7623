import BoundedTables.Table.Arena
import BoundedTables.Table.LinkedOrder

/-!
# Recency lists

Copies of the entries of a cache in descending order of their stamps. The entry at the back is the
next candidate for eviction.
-/

namespace BoundedTables

open Table

/-- A copy of an entry, stamped with the time that placed it in the list. -/
structure RecencyNode (κ ν : Type) where
  key : κ
  value : ν
  hash : UInt32
  stamp : Nat

/-- Stamped entries, latest stamp first. -/
structure RecencyList (κ ν : Type) where
  arena : Arena (RecencyNode κ ν)
  order : LinkedOrder

namespace RecencyList

variable {κ ν : Type}

/-- A list without entries. -/
def empty : RecencyList κ ν := ⟨.empty, .empty⟩

/-- The node in a slot. -/
def get? (l : RecencyList κ ν) (i : Nat) : Option (RecencyNode κ ν) := l.arena.get? i

/-- The number of nodes. -/
def size (l : RecencyList κ ν) : Nat := l.arena.size

/-- Add a node at the front, and say in which slot. -/
def pushFront (l : RecencyList κ ν) (node : RecencyNode κ ν) : Nat × RecencyList κ ν :=
  let (i, arena) := l.arena.insert node
  (i, ⟨arena, l.order.pushFront i⟩)

/-- Give a node a new stamp and a new value, and move it to the front. -/
def promote (l : RecencyList κ ν) (i stamp : Nat) (value : ν) : RecencyList κ ν :=
  if (l.get? i).isSome then
    { arena := l.arena.modify i fun node => { node with stamp, value }
      order := l.order.moveToFront i }
  else l

/-- Walk forward from a slot over the nodes stamped before a time, at most `fuel` of them. -/
def anchorFrom (l : RecencyList κ ν) (stamp : Nat) : Nat → Option Nat → Option Nat
  | _, none => none
  | 0, some i => some i
  | fuel + 1, some i =>
      match l.get? i with
      | some node =>
          if node.stamp < stamp then l.anchorFrom stamp fuel (l.order.before i) else some i
      | none => some i

/-- Give a node a new stamp, and move it right behind the last node stamped later. -/
def reposition (l : RecencyList κ ν) (i stamp : Nat) : RecencyList κ ν :=
  if (l.get? i).isSome then
    let l : RecencyList κ ν :=
      { arena := l.arena.modify i fun node => { node with stamp }
        order := l.order.detach i }
    match l.anchorFrom stamp l.arena.slots.size l.order.tail with
    | some anchor => { l with order := l.order.insertAfter anchor i }
    | none => { l with order := l.order.pushFront i }
  else l

/-- The candidate for eviction, with its slot. -/
def victim? (l : RecencyList κ ν) : Option (Nat × RecencyNode κ ν) :=
  l.order.tail.bind fun i => (l.get? i).map fun node => (i, node)

/-- Take a node out. -/
def remove (l : RecencyList κ ν) (i : Nat) : RecencyList κ ν :=
  ⟨(l.arena.remove i).2, l.order.detach i⟩

/-- The nodes, latest stamp first. -/
def toList (l : RecencyList κ ν) : List (RecencyNode κ ν) := l.order.toList.filterMap l.get?

end RecencyList

end BoundedTables
