import BoundedTables.Json.Scan
import BoundedTables.Event
import BoundedTables.Sizing.Prime
import BoundedTables.Sizing.PowerOfTwo
import BoundedTables.Hashing.Policy
import BoundedTables.Table.Arena
import BoundedTables.Table.ChainIndex
import BoundedTables.Table.LinkedOrder
import BoundedTables.Table.Cursor
import BoundedTables.Table.Options
import BoundedTables.DequeMap
import BoundedTables.MultiMap
import BoundedTables.RingMap
import BoundedTables.ProbeMap
import BoundedTables.LruCache
import BoundedTables.Tree.KeyPath
import BoundedTables.Tree.Coerce
import BoundedTables.Settings.Schema
import BoundedTables.Toml.Text
import BoundedTables.Toml.Document
import BoundedTables.Yaml.Document
import BoundedTables.Files.Store
import BoundedTables.Settings.Loader
import BoundedTables.Settings.Standard
import BoundedTables.Workload
import BoundedTables.Json.Pretty
import BoundedTables.CommandLine.Run
import BoundedTables.Main
import BoundedTables.Proofs.Table.LinkedOrder
import BoundedTables.Proofs.Table.Arena
import BoundedTables.Proofs.Table.ChainIndex
import BoundedTables.Proofs.EntryList
import BoundedTables.Proofs.EntryList.Keys
import BoundedTables.Proofs.Hashing.Policy
import BoundedTables.Proofs.Run
import BoundedTables.Proofs.Ends
import BoundedTables.Proofs.Table.LinkedTable
import BoundedTables.Proofs.Table.LinkedEntries
import BoundedTables.Proofs.Table.LinkedIteration
import BoundedTables.Proofs.Table.Trail
import BoundedTables.Proofs.Table.Edits
import BoundedTables.Proofs.Table.IndexedSlots
import BoundedTables.Proofs.Table.Reachable
import BoundedTables.Proofs.Table.Growth
import BoundedTables.Proofs.DequeMap
import BoundedTables.Proofs.MultiMap
import BoundedTables.Proofs.LinkedMaps
import BoundedTables.Proofs.RingMap
import BoundedTables.Proofs.LruCache
import BoundedTables.Proofs.LruCache.Coherent
import BoundedTables.Proofs.LruCache.Eviction
import BoundedTables.Proofs.LruCache.Growth
import BoundedTables.Proofs.BloomFilter
import BoundedTables.Proofs.ProbeMap.Options
import BoundedTables.Proofs.ProbeMap.Search
import BoundedTables.Proofs.Sizing.LoadFactor
import BoundedTables.Proofs.Sizing.PowerOfTwo
import BoundedTables.Proofs.Sizing.Overflow
import BoundedTables.Proofs.Sizing.Primality
import BoundedTables.Proofs.Sizing.PrimeSearch
import BoundedTables.Proofs.Sizing.LeastPrime
import BoundedTables.Proofs.Sizing.SearchEnd
import BoundedTables.Proofs.Sizing.Rounding
import BoundedTables.Proofs.Sizing.Growth
import BoundedTables.Proofs.ProbeMap.Rebuild
import BoundedTables.Proofs.ProbeMap.Iteration
import BoundedTables.Proofs.ProbeMap
import BoundedTables.Proofs.ProbeMap.Reachable
import BoundedTables.Proofs.ProbeMap.Longest
import BoundedTables.Proofs.ProbeMap.Effects
import BoundedTables.Proofs.ProbeMap.Load
import BoundedTables.Proofs.ProbeMap.Doubling
import BoundedTables.Proofs.ProbeMap.Maintenance
import BoundedTables.Proofs.ProbeMap.Churn
import BoundedTables.Proofs.ProbeMap.Refusal
import BoundedTables.Proofs.ProbeMap.Displacement
import BoundedTables.Proofs.ProbeMap.Registration
import BoundedTables.Proofs.ProbeMap.Bounds
import BoundedTables.Proofs.BloomFilter.Words
import BoundedTables.Proofs.BloomFilter.Inserted
import BoundedTables.Proofs.BloomFilter.Family
import BoundedTables.Proofs.BloomFilter.Exact
import BoundedTables.Proofs.BloomFilter.Union
import BoundedTables.Proofs.BloomFilter.Probe
import BoundedTables.Proofs.BloomFilter.Mix
import BoundedTables.Proofs.Table.Cursor
import BoundedTables.Proofs.Table.LinkedCursor
import BoundedTables.Proofs.RingMap.Cursor
import BoundedTables.Proofs.RingMap.Reachable
import BoundedTables.Proofs.RingMap.Window
import BoundedTables.Proofs.DequeMap.Cursor
import BoundedTables.Proofs.DequeMap.Iteration
import BoundedTables.Proofs.MultiMap.Cursor
import BoundedTables.Proofs.ProbeMap.Cursor
import BoundedTables.Proofs.Cursors
import BoundedTables.Proofs.Settings.Acceptance
import BoundedTables.Proofs.Workload.KeySet
import BoundedTables.Proofs.Workload.Containers
import BoundedTables.Proofs.Workload.Success
import BoundedTables.Proofs.Workload
import BoundedTables.Proofs.LoadFactors
import BoundedTables.Proofs.Hashing.Lookups
import BoundedTables.Proofs.Table.Lookups
import BoundedTables.Proofs.RingMap.Lookups
import BoundedTables.Proofs.DequeMap.Lookups
import BoundedTables.Proofs.MultiMap.Lookups
import BoundedTables.Proofs.LruCache.Lookups
import BoundedTables.Proofs.ProbeMap.Lookups
import BoundedTables.Proofs.Lookups
import BoundedTables.Proofs.Decimal.Digits
import BoundedTables.Proofs.Toml.Token
import BoundedTables.Proofs.Toml.Number
import BoundedTables.Proofs.Toml.Scalar
import BoundedTables.Proofs.Tree.Overlay
import BoundedTables.Proofs.Toml.Section
import BoundedTables.Proofs.Toml.Document
import BoundedTables.Proofs.Settings.Library
import BoundedTables.Proofs.Settings.Schema
import BoundedTables.Proofs.Files.Store
import BoundedTables.Proofs.Settings.RoundTrip
