import OsProjects.ForkJoin
import OsProjects.ByteStore
import OsProjects.ArraySlices
import OsProjects.ParallelSort
import OsProjects.SortLists
import OsProjects.SortRefinement
import OsProjects.SortOrder
import OsProjects.Runs
import OsProjects.UfsLayout
import OsProjects.FileServer
import OsProjects.Volume
import OsProjects.VolumeSteps
import OsProjects.VolumeSound
import OsProjects.VolumeRefinement
import OsProjects.MkfsImage
import OsProjects.ServerRuns
import OsProjects.DirectoryBlocks
import OsProjects.BlockOwnership
import OsProjects.DirectorySlots
import OsProjects.DirectorySteps
import OsProjects.FirstFiles
import OsProjects.DirectoryMap
import OsProjects.SharedBlocks
import OsProjects.FileContents
import OsProjects.Regions
import OsProjects.ImageRegions
import OsProjects.Allocations
import OsProjects.Transfers
import OsProjects.EntryNames
import OsProjects.ForeignBytes
import OsProjects.Restarts
import OsProjects.FailedRequests
import OsProjects.Repetition
import OsProjects.VisibleCreats
import OsProjects.DotEntries
import OsProjects.UnusedSlots
import OsProjects.EmptyDirectories
import OsProjects.RetriedCalls
import OsProjects.LateCopies
import OsProjects.Crashes
import OsProjects.MissingInodes
import OsProjects.Collection
import OsProjects.UserLock
import OsProjects.AddressSpaces
import OsProjects.PageTables
import OsProjects.ProcessGrowth
import OsProjects.CloneStacks
import OsProjects.ThreadFamilies
import OsProjects.ThreadStacks
import OsProjects.LogTransactions
import OsProjects.PriorityScheduler
import OsProjects.BusyPasses
import OsProjects.SystemCalls
import OsProjects.TraceCounts
import OsProjects.WishLines
import OsProjects.WishProcesses
import OsProjects.WishRedirects
import OsProjects.WishConditions
import OsProjects.WishArrays
import OsProjects.SortConservation
import OsProjects.StableSorts
import OsProjects.SequentialSorts
import OsProjects.KeyRange
import OsProjects.FileSizes
import OsProjects.WriteFrames
import OsProjects.Datagrams
import OsProjects.RedoLogs
import OsProjects.WordArrays
import OsProjects.LogRecovery
import OsProjects.LogCapacity
import OsProjects.HeldLocks
import OsProjects.SleepLocks
import OsProjects.Rings
import OsProjects.Umalloc
import OsProjects.UmallocRuns
import OsProjects.RingBuffers
import OsProjects.Pipes
import OsProjects.DoublyLinked
import OsProjects.BufferCache
import OsProjects.BitMaps
import OsProjects.Ownership
import OsProjects.InodeFiles
import OsProjects.InodeContents
import OsProjects.InodeRuns
