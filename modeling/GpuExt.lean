import GpuExt.NvTypes
import GpuExt.RangeAllocatorPartition
import GpuExt.RegmapStats
import GpuExt.PmmReturned
import GpuExt.BtreeRuns
import GpuExt.AtsFaultAttribution
import GpuExt.FaultReplayCoverage
import GpuExt.FaultCoalescing
import GpuExt.ManagedFaultService
import GpuExt.AddMappings
import GpuExt.EncryptedSemaphore
import GpuExt.GspDelivery
import GpuExt.FreeListCycles
import GpuExt.HandleGenerator
import GpuExt.FailedReservation
import GpuExt.MappingBackRefs
import GpuExt.OrderedIterator
import GpuExt.SharePolicy
import GpuExt.DisabledClients
import GpuExt.PrefetchTree
import GpuExt.RangeVec
import GpuExt.PmmHooks
import GpuExt.RegmapNuma
import GpuExt.TimesliceControl
import GpuExt.PmaRegions
import GpuExt.PmmExclusion
import GpuExt.ChannelProgress
import GpuExt.TrackingSemaphoreCalls
import GpuExt.VectorIter
