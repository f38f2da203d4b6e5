import RknpuDriver.Mm.Runs
import RknpuDriver.Mm.FirstFit
import RknpuDriver.Mm.Release
import RknpuDriver.Mm.Create
import RknpuDriver.Mm.Dump
import RknpuDriver.Lib.System
import RknpuDriver.Lib.Ownership
import RknpuDriver.Lib.Threads
import RknpuDriver.Lib.Layout
import RknpuDriver.Lib.Slices
import RknpuDriver.Lib.Scatter
import RknpuDriver.Lib.Memory
import RknpuDriver.Power.Refcount
import RknpuDriver.Power.Hardware
import RknpuDriver.Job.Device
import RknpuDriver.Job.Runs
import RknpuDriver.Lib.Gang.Quiescence
import RknpuDriver.Job.Frames
import RknpuDriver.Job.Positions
import RknpuDriver.Job.Masks
import RknpuDriver.Job.Queued
import RknpuDriver.Job.Abort
import RknpuDriver.Job.Undisturbed
import RknpuDriver.Job.Simulation
import RknpuDriver.Job.Calm
import RknpuDriver.Job.Scheduler
import RknpuDriver.Job.Lifetime
import RknpuDriver.Gem.Objects
import RknpuDriver.Gem.Tracking
import RknpuDriver.Gem.Lookups
import RknpuDriver.Mem.Sessions
import RknpuDriver.Mem.DmaBufs
import RknpuDriver.Mem.Sync
import RknpuDriver.Mem.Unwind
import RknpuDriver.Mem.Arguments
import RknpuDriver.Job.Fences
import RknpuDriver.Iommu.Domains
import RknpuDriver.Buffer.Pages
import RknpuDriver.Buffer.Objects
import RknpuDriver.Buffer.Sram
import RknpuDriver.Buffer.Mmap
import RknpuDriver.Buffer.Views
import RknpuDriver.Buffer.Calls
import RknpuDriver.Buffer.Windows
import RknpuDriver.Buffer.Sharing
import RknpuDriver.Buffer.Sync
import RknpuDriver.Buffer.CacheSync
import RknpuDriver.Buffer.ShippedSync
import RknpuDriver.Buffer.SyncBounds
import RknpuDriver.Buffer.MmapBounds
import RknpuDriver.Buffer.Ledger
import RknpuDriver.Buffer.Unwind
import RknpuDriver.Misc.TaskAddr
import RknpuDriver.Job.Restart
import RknpuDriver.Job.Taken
import RknpuDriver.Job.Started
import RknpuDriver.Job.Lines
import RknpuDriver.Job.Timeline
import RknpuDriver.Job.InFences
import RknpuDriver.Job.Underway
import RknpuDriver.Job.Matching
import RknpuDriver.Job.Exclusive
import RknpuDriver.Job.References
import RknpuDriver.Job.PutsOnce
import RknpuDriver.Devfreq.Target
import RknpuDriver.Devfreq.Cap
import RknpuDriver.Devfreq.Bookkeeping
import RknpuDriver.Power.Manual
import RknpuDriver.Power.Retry
import RknpuDriver.Debugger.ControlNodes
import RknpuDriver.Session.Lookups
import RknpuDriver.Job.CommitPc
import RknpuDriver.Job.Coverage
import RknpuDriver.Job.TaskBuffer
import RknpuDriver.Job.TimeoutClean
import RknpuDriver.Job.Deadlines
import RknpuDriver.Iommu.Resets
import RknpuDriver.Job.AddressSpaces
import RknpuDriver.Job.Backlog
import RknpuDriver.Job.EarlyErrors
import RknpuDriver.Job.BusyTime
import RknpuDriver.Buffer.Sizes
import RknpuDriver.Buffer.KernelMap
import RknpuDriver.Gem.TrackCalls
import RknpuDriver.Dma32.Allocate
import RknpuDriver.Dma32.Mmap
import RknpuDriver.Dma32.Vmap
import RknpuDriver.Iommu.MapSg
import RknpuDriver.Iommu.Switching
import RknpuDriver.Lib.Coalesce
import RknpuDriver.Lib.Spans
import RknpuDriver.Iommu.IovaLayout
import RknpuDriver.Iommu.Finalise
import RknpuDriver.Iommu.Groups
import RknpuDriver.Iommu.Reversible
import RknpuDriver.Iommu.SegmentLimits
import RknpuDriver.Iommu.UnmapSg
import RknpuDriver.Probe.Probe
import RknpuDriver.Probe.Cycles
import RknpuDriver.Job.Waited
import RknpuDriver.Ioctl.Powered
import RknpuDriver.Lib.Coherence
import RknpuDriver.Buffer.Coherence
import RknpuDriver.Job.Registers
import RknpuDriver.Lib.WaitQueues
import RknpuDriver.Job.WakeUps
import RknpuDriver.Job.BoundedWork
import RknpuDriver.Lib.Mappings
import RknpuDriver.Iommu.Translations
import RknpuDriver.Job.Executed
