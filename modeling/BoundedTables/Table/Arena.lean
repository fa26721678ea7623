/-!
# Arenas

Nodes live in numbered slots. A freed slot goes on a stack and is reused before the arena grows,
so that links between nodes can be plain slot numbers.
-/

namespace BoundedTables.Table

/-- Numbered slots with a stack of the free ones. -/
structure Arena (α : Type) where
  slots : Array (Option α)
  free : List Nat
  size : Nat

namespace Arena

variable {α : Type}

/-- An arena without slots. -/
def empty : Arena α := ⟨#[], [], 0⟩

/-- The node in a slot. -/
def get? (a : Arena α) (i : Nat) : Option α := (a.slots[i]?).join

/-- Put a node into the slot freed last, or into a new one. -/
def insert (a : Arena α) (node : α) : Nat × Arena α :=
  match a with
  | ⟨slots, [], size⟩ => (slots.size, ⟨slots.push (some node), [], size + 1⟩)
  | ⟨slots, i :: rest, size⟩ => (i, ⟨slots.setIfInBounds i (some node), rest, size + 1⟩)

/-- Take the node out of a slot. An empty slot stays as it is. -/
def remove (a : Arena α) (i : Nat) : Option α × Arena α :=
  match a.get? i with
  | none => (none, a)
  | some node =>
      match a with
      | ⟨slots, free, size⟩ => (some node, ⟨slots.setIfInBounds i none, i :: free, size - 1⟩)

/-- Change the node in a slot. -/
def modify (a : Arena α) (i : Nat) (f : α → α) : Arena α :=
  match a with
  | ⟨slots, free, size⟩ => ⟨slots.modify i (Option.map f), free, size⟩

/-- The occupied slots in ascending order, with their nodes. -/
def occupied (a : Arena α) : List (Nat × α) :=
  (List.range a.slots.size).filterMap fun i => (a.get? i).map fun node => (i, node)

end Arena

end BoundedTables.Table
