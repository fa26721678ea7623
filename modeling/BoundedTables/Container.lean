import BoundedTables.DequeMap
import BoundedTables.LruCache
import BoundedTables.MultiMap
import BoundedTables.ProbeMap
import BoundedTables.RingMap

/-!
# What all containers have in common

Keys are looked up and removed, and entries are counted and listed. What a container reports
while it works goes into its journal, which its owner may empty. The values of a multimap are
lists.
-/

namespace BoundedTables

/-- A container with keys and values. Every operation that looks at keys also changes the
container, because lookups are monitored. -/
class Container (C : Type) (κ ν : outParam Type) where
  /-- The name of the container in settings and reports. -/
  name : String
  size : C → Nat
  /-- The entries dropped to make room. -/
  evictions : C → Nat
  toList : C → List (κ × ν)
  get : C → κ → Option ν × C
  containsKey : C → κ → Bool × C
  /-- Remove a key. There may be no result. -/
  remove : C → κ → Option (Option ν × C)
  clear : C → C
  journal : C → Journal
  withJournal : C → Journal → C

variable {κ ν : Type}

instance : Container (RingMap κ ν) κ ν where
  name := "nalu"
  size := RingMap.size
  evictions := RingMap.evictions
  toList := RingMap.toList
  get := RingMap.get
  containsKey := RingMap.containsKey
  remove c key := some (c.remove key)
  clear := RingMap.clear
  journal := RingMap.journal
  withJournal c j := { c with journal := j }

instance : Container (DequeMap κ ν) κ ν where
  name := "lei"
  size := DequeMap.size
  evictions := DequeMap.evictions
  toList := DequeMap.toList
  get := DequeMap.get
  containsKey := DequeMap.containsKey
  remove c key := some (c.remove key)
  clear := DequeMap.clear
  journal c := c.table.journal
  withJournal c j := { c with table := { c.table with journal := j } }

instance : Container (MultiMap κ ν) κ (List ν) where
  name := "ohana"
  size := MultiMap.size
  evictions := MultiMap.evictions
  toList := MultiMap.toList
  get := MultiMap.get
  containsKey := MultiMap.containsKey
  remove c key := some (c.remove key)
  clear := MultiMap.clear
  journal c := c.table.journal
  withJournal c j := { c with table := { c.table with journal := j } }

instance : Container (LruCache κ ν) κ ν where
  name := "moana"
  size := LruCache.size
  evictions := LruCache.evictions
  toList := LruCache.toList
  get := LruCache.get
  containsKey := LruCache.containsKey
  remove c key := some (c.remove key)
  clear := LruCache.clear
  journal := LruCache.journal
  withJournal c j := { c with journal := j }

/-- The probe map grows as long as it can, and drops nothing. -/
instance : Container (ProbeMap κ ν) κ ν where
  name := "puka"
  size := ProbeMap.size
  evictions _ := 0
  toList := ProbeMap.toList
  get := ProbeMap.get
  containsKey := ProbeMap.containsKey
  remove := ProbeMap.remove
  clear := ProbeMap.clear
  journal := ProbeMap.journal
  withJournal c j := { c with journal := j }

end BoundedTables
