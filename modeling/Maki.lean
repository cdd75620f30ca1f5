import Maki.Prog
import Maki.Splice
import Maki.Layout
import Maki.Disk
import Maki.Io
import Maki.Codec
import Maki.AbStore
import Maki.Settled
import Maki.AbCrash
import Maki.CheckpointState
import Maki.AbRun
import Maki.Frame
import Maki.JournalFormat
import Maki.DurableProof
import Maki.ProofStore
import Maki.ProofRun
import Maki.Geometry
import Maki.CoreError
import Maki.Superblock
import Maki.SlotFormat
import Maki.Metadata
import Maki.SlotStore
import Maki.SlotReads
import Maki.SlotCells
import Maki.StoreCells
import Maki.SlotWrites
import Maki.JournalRecords
import Maki.ReferenceScan
import Maki.SegmentScan
import Maki.SegmentSound
import Maki.ScanAgree
import Maki.JournalScan
import Maki.JournalSound
import Maki.JournalReplay
import Maki.JournalWriter
import Maki.WriterInvariant
import Maki.WriterRun
import Maki.Footprint
import Maki.FootprintRun
import Maki.JournalFrame
import Maki.Overlay
import Maki.Creation
import Maki.Recovery
import Maki.Volume
import Maki.JournalCounters
import Maki.JournalHistory
import Maki.VolumeRun
import Maki.VolumeCells
import Maki.PlanCells
import Maki.VolumeSession
import Maki.Drain
import Maki.VolumeBacked
import Maki.Request
import Maki.UnitLocks
import Maki.Updates
import Maki.Json
import Maki.RemoteWitness
import Maki.RemoteHistory
import Maki.RemoteCodec
import Maki.Publish
import Maki.PublishRun
import Maki.FileWitness
import Maki.StateStore
import Maki.Etcd
import Maki.EtcdRun
import Maki.Lane
import Maki.LaneTask
import Maki.LaneRun
import Maki.LaneOrder
import Maki.LaneLimits
import Maki.VolumeConfig
import Maki.BatchLimits
import Maki.WebSocket
import Maki.WebSocketRun
import Maki.Cache
import Maki.Engine
import Maki.VolumeAnswers
import Maki.EngineRun
import Maki.EngineReads
import Maki.EngineWrites
import Maki.VolumeStart
import Maki.EngineDevice
import Maki.Nbd
import Maki.EngineHistory
import Maki.MapSum
import Maki.CacheRun
import Maki.OverlayRun
import Maki.Border
import Maki.Checked
import Maki.Breaker
import Maki.RandomPrefix
import Maki.HttpMapping
import Maki.Dispatch
import Maki.EndpointSet
import Maki.GrpcFraming
import Maki.LvmNames
import Maki.LayoutNames
import Maki.PageLocks
