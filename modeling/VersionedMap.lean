import VersionedMap.SortedMap
import VersionedMap.Walk
import VersionedMap.ItemDiff
import VersionedMap.EntryDiff
import VersionedMap.Bisect
import VersionedMap.Inspect
import VersionedMap.Replay
import VersionedMap.Cursor
import VersionedMap.SnapshotCodec
import VersionedMap.ChangeCodec
import VersionedMap.MergedWalk
import VersionedMap.OverlayDiff
import VersionedMap.Transaction
import VersionedMap.Signal
import VersionedMap.SignalRun
import VersionedMap.KeySet
import VersionedMap.Replica
import VersionedMap.LinkedSet
import VersionedMap.JsonReader
import VersionedMap.CodecLaws
import VersionedMap.Proofs.Replication
import VersionedMap.Proofs.DiffAgreement
import VersionedMap.Proofs.SerialOrder
import VersionedMap.Proofs.Custody
import VersionedMap.Proofs.Departures
import VersionedMap.Proofs.LinkedEnds
import VersionedMap.Proofs.Isolation
import VersionedMap.Proofs.KeySpelling
import VersionedMap.Proofs.Seeding
import VersionedMap.Proofs.Failures
import VersionedMap.Proofs.CanonicalDifference
import VersionedMap.Proofs.ItemDifference
import VersionedMap.Proofs.Alignment
import VersionedMap.Proofs.RangeReads
import VersionedMap.Proofs.WalkBounds
import VersionedMap.Proofs.SetTransactions
import VersionedMap.Proofs.SnapshotReading
import VersionedMap.Proofs.ChangeReading
import VersionedMap.Proofs.EqualSnapshots
