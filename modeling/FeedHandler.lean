import FeedHandler.Types
import FeedHandler.General.BinarySearch
import FeedHandler.General.Memmove
import FeedHandler.General.RankedMap
import FeedHandler.General.ByteOrder
import FeedHandler.General.ReprC
import FeedHandler.General.ByteStream
import FeedHandler.General.Framing
import FeedHandler.BookSide
import FeedHandler.SideBounds
import FeedHandler.Depth
import FeedHandler.SideRefinement
import FeedHandler.DepthTrust
import FeedHandler.OrderBook
import FeedHandler.SequenceCounters
import FeedHandler.SideHistory
import FeedHandler.Capture
import FeedHandler.TickReader
import FeedHandler.CaptureFile
import FeedHandler.General.Machine
import FeedHandler.General.BoundedFifo
import FeedHandler.RingBuffer
import FeedHandler.RingHandshake
import FeedHandler.General.PoisonMutex
import FeedHandler.Canary
import FeedHandler.RingCalls
import FeedHandler.General.Fairness
import FeedHandler.General.FaultyWriter
import FeedHandler.DiskFaults
import FeedHandler.SpinClients
import FeedHandler.PendingPromises
import FeedHandler.Accounting
import FeedHandler.ExchangeBook
import FeedHandler.Resync
import FeedHandler.ReferenceModel
import FeedHandler.ForeignTicks
import FeedHandler.DropHealing
import FeedHandler.DebugBook
import FeedHandler.IncidentReplay
import FeedHandler.DebugRing
import FeedHandler.General.ReleaseAcquire
import FeedHandler.RingHistories
import FeedHandler.BookEngine
import FeedHandler.DrainOrder
import FeedHandler.StaleEngine
import FeedHandler.SnapshotOrder
import FeedHandler.BookQueries
import FeedHandler.ApplyTruth
import FeedHandler.SequenceReplays
import FeedHandler.TickCounter
import FeedHandler.RingGauge
import FeedHandler.ReadErrors
import FeedHandler.Timer
import FeedHandler.LatencyHistogram
import FeedHandler.HistogramOctaves
import FeedHandler.General.Exposition
import FeedHandler.General.ExpositionWriter
import FeedHandler.Metrics
import FeedHandler.SymbolText
import FeedHandler.MetricsPage
