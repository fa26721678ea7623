/-!
# Linked orders

A doubly linked list of slot numbers. The list owns the links before and behind every slot next
to its two ends, and every operation keeps each direction the reverse of the other.
-/

namespace BoundedTables.Table

/-- The ends of a list of slots, and the links between its members. -/
structure LinkedOrder where
  head : Option Nat
  tail : Option Nat
  previous : Array (Option Nat)
  following : Array (Option Nat)

namespace LinkedOrder

/-- The empty list. -/
def empty : LinkedOrder := ⟨none, none, #[], #[]⟩

/-- The slot behind another one. -/
def after (o : LinkedOrder) (i : Nat) : Option Nat := (o.following[i]?).join

/-- The slot in front of another one. -/
def before (o : LinkedOrder) (i : Nat) : Option Nat := (o.previous[i]?).join

/-- Put a value at an index, growing the array with absent links as far as needed. -/
def put (links : Array (Option Nat)) (i : Nat) (target : Option Nat) : Array (Option Nat) :=
  if i < links.size then links.setIfInBounds i target
  else (links ++ Array.replicate (i - links.size) none).push target

/-- Set the link behind a slot. -/
def setAfter (o : LinkedOrder) (i : Nat) (target : Option Nat) : LinkedOrder :=
  { o with following := put o.following i target }

/-- Set the link in front of a slot. -/
def setBefore (o : LinkedOrder) (i : Nat) (target : Option Nat) : LinkedOrder :=
  { o with previous := put o.previous i target }

/-- Set the link behind a slot, or the head when there is no slot. -/
def setAfterOrHead (o : LinkedOrder) (i? target : Option Nat) : LinkedOrder :=
  match i? with
  | some i => o.setAfter i target
  | none => { o with head := target }

/-- Set the link in front of a slot, or the tail when there is no slot. -/
def setBeforeOrTail (o : LinkedOrder) (i? target : Option Nat) : LinkedOrder :=
  match i? with
  | some i => o.setBefore i target
  | none => { o with tail := target }

/-- Add a slot at the back. -/
def pushBack (o : LinkedOrder) (i : Nat) : LinkedOrder :=
  let last := o.tail
  let o := (o.setBefore i last).setAfter i none
  { o.setAfterOrHead last (some i) with tail := some i }

/-- Add a slot at the front. -/
def pushFront (o : LinkedOrder) (i : Nat) : LinkedOrder :=
  let first := o.head
  let o := (o.setBefore i none).setAfter i first
  { o.setBeforeOrTail first (some i) with head := some i }

/-- Take a slot out of the list and join its neighbours. -/
def detach (o : LinkedOrder) (i : Nat) : LinkedOrder :=
  let back := o.before i
  let ahead := o.after i
  let o := o.setAfterOrHead back ahead
  let o := o.setBeforeOrTail ahead back
  (o.setBefore i none).setAfter i none

/-- Make a slot the first one. -/
def moveToFront (o : LinkedOrder) (i : Nat) : LinkedOrder :=
  if o.head = some i then o else (o.detach i).pushFront i

/-- Make a slot the last one. -/
def moveToBack (o : LinkedOrder) (i : Nat) : LinkedOrder :=
  if o.tail = some i then o else (o.detach i).pushBack i

/-- Add a slot right behind another one. -/
def insertAfter (o : LinkedOrder) (anchor i : Nat) : LinkedOrder :=
  let ahead := o.after anchor
  let o := (o.setBefore i (some anchor)).setAfter i ahead
  let o := o.setAfter anchor (some i)
  o.setBeforeOrTail ahead (some i)

/-- The slots reached from one of them by following the links behind, at most `fuel` many. -/
def walk (o : LinkedOrder) : Nat → Option Nat → List Nat
  | _, none => []
  | 0, some _ => []
  | fuel + 1, some i => i :: o.walk fuel (o.after i)

/-- The slots from front to back. -/
def toList (o : LinkedOrder) : List Nat := o.walk o.following.size o.head

end LinkedOrder

end BoundedTables.Table
