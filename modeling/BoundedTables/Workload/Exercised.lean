import BoundedTables.Container

/-!
# Containers under a workload

How the workload reads from each container, writes to it, and looks at it in the end. A container
is consistent when it counts as many entries as it lists and finds every key that it lists.
-/

namespace BoundedTables.Workload

/-- What the workload does with words as keys and values. -/
class Exercised (C : Type) where
  /-- Look up a key; the answer tells whether it is present. -/
  read : C → UInt64 → Bool × C
  write : C → UInt64 → UInt64 → Except TableError Unit × C
  consistent : C → Bool × C

/-- Look up keys up to the first one that is not found. -/
def findAll {C κ : Type} (contains : C → κ → Bool × C) : C → List κ → Bool × C
  | c, [] => (true, c)
  | c, key :: rest =>
      match contains c key with
      | (true, c) => findAll contains c rest
      | (false, c) => (false, c)

/-- Whether a container counts as many entries as it lists, and finds them all. Other counts may
have to agree, too. -/
def agrees {C κ ν : Type} [Container C κ ν] (c : C) (others : Bool) : Bool × C :=
  let entries := Container.toList c
  if entries.length == Container.size c && others then
    findAll Container.containsKey c (entries.map (·.1))
  else (false, c)

/-- A lookup, as far as it tells whether the key is present. -/
def found {C ν : Type} (r : Option ν × C) : Bool × C := (r.1.isSome, r.2)

/-- An insertion, as far as it tells whether it failed. -/
def written {C ν : Type} (r : Except TableError ν × C) : Except TableError Unit × C :=
  (r.1.map fun _ => (), r.2)

instance : Exercised (RingMap UInt64 UInt64) where
  read c key := found (c.get key)
  write c key v := written (c.insert key v)
  consistent c := agrees c true

/-- Reads move an entry to the back, so that the entry dropped first is the one read least
recently. -/
instance : Exercised (DequeMap UInt64 UInt64) where
  read c key := c.moveToBack key
  write c key v := (.ok (), (c.pushBack key v).2)
  consistent c := agrees c (c.toListBack.length == c.size)

instance : Exercised (MultiMap UInt64 UInt64) where
  read c key := found (c.get key)
  write c key v := (.ok (), c.insert key v)
  consistent c := agrees c (c.pairs.length == c.values)

instance : Exercised (LruCache UInt64 UInt64) where
  read c key := found (c.get key)
  write c key v := (.ok (), (c.put key v).2)
  consistent c := (c.isConsistent, c)

instance : Exercised (ProbeMap UInt64 UInt64) where
  read c key := found (c.get key)
  write c key v := written (c.insert key v)
  consistent c := agrees c true

end BoundedTables.Workload
