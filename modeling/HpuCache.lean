import HpuCache.EventRun
import HpuCache.FifoLinks
import HpuCache.BypassHistory
import HpuCache.LosslessFlush
import HpuCache.LostSlots
import HpuCache.ForwardService
import HpuCache.HotRefinement
import HpuCache.Cadence
import HpuCache.LruGossip
import HpuCache.BulkTransfer
import HpuCache.HotMembers
import HpuCache.SlotGossip
import HpuCache.Propagation
import HpuCache.SlotMove
import HpuCache.SlotKeys
import HpuCache.CopyCarried
import HpuCache.ElectionSafety
import HpuCache.Unroutable
import HpuCache.PacketCheck
import HpuCache.ForwardAim
import HpuCache.HashBounds
import HpuCache.LocalRouting
import HpuCache.CommandTrip
import HpuCache.CacheReads
import HpuCache.HotMetric
import HpuCache.PagedCopy
import HpuCache.CopyOneSlot
import HpuCache.MigrateRetry
import HpuCache.ConfigTrip
import HpuCache.CacheCounter
import HpuCache.HitCounts
import HpuCache.LruMerge
import HpuCache.SlotBatch
import HpuCache.ForwardedShape
import HpuCache.RunScan
import HpuCache.OnePassRanges
import HpuCache.MigrateRequest
import HpuCache.ModeCommands
import HpuCache.WordSplit
import HpuCache.Controller
import HpuCache.LinkDelivery
import HpuCache.FailureDetection
import HpuCache.EpochCollision
import HpuCache.RedirectedClient
import HpuCache.SavedData
import HpuCache.ManualFailover
import HpuCache.DictScan
