import MelodiaStore.Effects
import MelodiaStore.Ordered
import MelodiaStore.SortedCursor
import MelodiaStore.Walk
import MelodiaStore.Interleaving
import MelodiaStore.Simulation
import MelodiaStore.Words
import MelodiaStore.Runs
import MelodiaStore.Chunking
import MelodiaStore.Greatest
import MelodiaStore.FileSystem
import MelodiaStore.Types
import MelodiaStore.Versions
import MelodiaStore.VersionRefinement
import MelodiaStore.Store
import MelodiaStore.History
import MelodiaStore.Bookkeeping
import MelodiaStore.Publish
import MelodiaStore.ListStore
import MelodiaStore.ListBookkeeping
import MelodiaStore.ListRegistration
import MelodiaStore.Mvkv
import MelodiaStore.Readset
import MelodiaStore.ReadsetValidators
import MelodiaStore.MergeIterator
import MelodiaStore.Iterator
import MelodiaStore.View
import MelodiaStore.ValidateIterator
import MelodiaStore.Replay
import MelodiaStore.CacheKV
import MelodiaStore.WriteBack
import MelodiaStore.StoreSafety
import MelodiaStore.EstimateVisibility
import MelodiaStore.MissingVersions
import MelodiaStore.Serial
import MelodiaStore.Transaction
import MelodiaStore.Completeness
import MelodiaStore.CacheMergeIterator
import MelodiaStore.MemIterator
import MelodiaStore.CacheStore
import MelodiaStore.CacheOverlay
import MelodiaStore.CacheMulti
import MelodiaStore.CacheWrite
import MelodiaStore.CacheRange
import MelodiaStore.Snapshot
import MelodiaStore.MergeEquivalence
import MelodiaStore.CacheRace
import MelodiaStore.PrefixStore
import MelodiaStore.PrefixRange
import MelodiaStore.StoreKeys
import MelodiaStore.Pagination
import MelodiaStore.InterBlockCache
import MelodiaStore.BigCache
import MelodiaStore.Pruning
import MelodiaStore.PruningProgress
import MelodiaStore.PruningRecent
import MelodiaStore.PruningRestart
import MelodiaStore.ChunkStream
import MelodiaStore.ChunkReaders
import MelodiaStore.Extensions
import MelodiaStore.ExtensionRoundTrip
import MelodiaStore.ExtensionTermination
import MelodiaStore.NodeItems
import MelodiaStore.SnapshotStore
import MelodiaStore.SnapshotIndependence
import MelodiaStore.SnapshotPrune
import MelodiaStore.SnapshotListing
import MelodiaStore.SnapshotManager
import MelodiaStore.RestoreStream
import MelodiaStore.GasMeter
import MelodiaStore.GasRace
import MelodiaStore.GasKv
import MelodiaStore.GasKvRuns
import MelodiaStore.Merkle
import MelodiaStore.MerkleMap
import MelodiaStore.CommitInfo
import MelodiaStore.CommitProof
import MelodiaStore.AbsenceProof
import MelodiaStore.RootCommit
import MelodiaStore.Loading
import MelodiaStore.CommitReplay
import MelodiaStore.StableSort
import MelodiaStore.Streaming
