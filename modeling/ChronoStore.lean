import ChronoStore.Foundation.OrderedMap
import ChronoStore.Foundation.WriteHistory
import ChronoStore.Foundation.ShiftRegister
import ChronoStore.Foundation.PolynomialDivision
import ChronoStore.Foundation.FaultyDisk
import ChronoStore.Foundation.DiskLogic
import ChronoStore.Foundation.Footprint
import ChronoStore.Foundation.Territory
import ChronoStore.Foundation.WordArithmetic
import ChronoStore.Foundation.Tiling
import ChronoStore.Foundation.Trimming
import ChronoStore.Foundation.PowerLoss
import ChronoStore.Foundation.Replacement
import ChronoStore.Foundation.Linearizability
import ChronoStore.Foundation.RadixRounding
import ChronoStore.Model
import ChronoStore.Foundation.Parser
import ChronoStore.Codec.ByteCodec
import ChronoStore.Codec.SeriesIdentity
import ChronoStore.Codec.Crc32c
import ChronoStore.Codec.Castagnoli
import ChronoStore.Codec.WalRecord
import ChronoStore.Codec.WalRecovery
import ChronoStore.Codec.WalFormat
import ChronoStore.Codec.WalMemory
import ChronoStore.Codec.WalReplay
import ChronoStore.Codec.WalDamage
import ChronoStore.Codec.SegmentBlock
import ChronoStore.Codec.SegmentFile
import ChronoStore.Codec.SegmentWriter
import ChronoStore.Codec.SegmentReader
import ChronoStore.Codec.Manifest
import ChronoStore.Codec.SegmentDamage
import ChronoStore.Codec.SegmentFormat
import ChronoStore.Codec.SegmentScan
import ChronoStore.Codec.SegmentAccess
import ChronoStore.Codec.SegmentLayout
import ChronoStore.Codec.ManifestFormat
import ChronoStore.Engine.MemTable
import ChronoStore.Engine.Blocks
import ChronoStore.Engine.Splitting
import ChronoStore.Engine.FileIo
import ChronoStore.Engine.AtomicWrite
import ChronoStore.Engine.WalRepair
import ChronoStore.Engine.WriterRuns
import ChronoStore.Engine.StorageEngine
import ChronoStore.Engine.Layers
import ChronoStore.Engine.Inspection
import ChronoStore.Engine.AnyDirectory
import ChronoStore.Engine.Database
import ChronoStore.Protocol.Stage
import ChronoStore.Protocol.Following
import ChronoStore.Protocol.Logging
import ChronoStore.Protocol.Publication
import ChronoStore.Protocol.Recovery
import ChronoStore.Protocol.Tracking
import ChronoStore.Protocol.Operations
import ChronoStore.Protocol.FlushCompact
import ChronoStore.Protocol.Queries
import ChronoStore.Protocol.Session
import ChronoStore.Protocol.Refinement
import ChronoStore.Protocol.Clients
import ChronoStore.Protocol.Invariants
import ChronoStore.Protocol.Limits
import ChronoStore.Protocol.Compaction
import ChronoStore.Protocol.Exceptions
import ChronoStore.Protocol.Responses
import ChronoStore.Protocol.Processes
import ChronoStore.Protocol.Linearization
import ChronoStore.Protocol.Accounting
import ChronoStore.Protocol.Ownership
import ChronoStore.Protocol.Confinement
import ChronoStore.Protocol.Housekeeping
import ChronoStore.Protocol.Secured
import ChronoStore.Protocol.Durability
import ChronoStore.Tools.TagText
import ChronoStore.Tools.ChronoView
import ChronoStore.Tools.Binary64
import ChronoStore.Tools.NumberText
import ChronoStore.Tools.CommandLine
import ChronoStore.Tools.Addressing
import ChronoStore.Tools.CommandRuns
