import CxxLab.Lib.Runs
import CxxLab.Lib.Codec
import CxxLab.Lib.Ring
import CxxLab.Lib.Crash
import CxxLab.Common.Crc32
import CxxLab.Btier.Types
import CxxLab.Btier.Journal
import CxxLab.Btier.JournalReplay
import CxxLab.Btier.Engine
import CxxLab.Btier.EngineSpace
import CxxLab.Btier.EngineContent
import CxxLab.Btier.EngineCalls
import CxxLab.Btier.EngineMigration
import CxxLab.Btier.EngineRuns
import CxxLab.Btier.Recovery
import CxxLab.Btier.JournalCrash
import CxxLab.Btier.Durable
import CxxLab.Btier.DurableView
import CxxLab.Btier.CrashCalls
import CxxLab.Btier.CrashPut
import CxxLab.Btier.CrashMigration
import CxxLab.Btier.CrashRuns
import CxxLab.Btier.JournalBounds
import CxxLab.Bluestore.TransContext
import CxxLab.Bluestore.DeferredLog
import CxxLab.Bluestore.DirectWrites
import CxxLab.Bluestore.OnodeCache
import CxxLab.Common.Denc
import CxxLab.Lib.SortedList
import CxxLab.Bluestore.OnodeCodec
import CxxLab.Bluestore.CollectionList
import CxxLab.Bluestore.FreelistRuns
import CxxLab.Bluestore.NodeIds
import CxxLab.Bluestore.Mount
import CxxLab.Bluestore.Sequencing
import CxxLab.Bluestore.MountRuns
import CxxLab.Blk.Intarith
import CxxLab.Blk.AvlAllocator
import CxxLab.Blk.AvlRuns
import CxxLab.Blk.AvlExtents
import CxxLab.Blk.AvlPlaces
import CxxLab.Common.ObjectKeys
import CxxLab.Bluefs.Types
import CxxLab.Bluefs.Nodes
import CxxLab.Bluefs.Namespace
import CxxLab.Bluestore.Fsck
import CxxLab.Bluestore.FsckRuns
import CxxLab.Bluefs.Fnodes
import CxxLab.Bluefs.Log
import CxxLab.Bluefs.LogSteps
import CxxLab.Bluefs.LogRuns
import CxxLab.Lib.SortedCursor
import CxxLab.Bluestore.ExtentMap
import CxxLab.Bluestore.ExtentMapCompress
import CxxLab.Lib.SortedMap
import CxxLab.Kv.MemDb
import CxxLab.Kv.RocksDbStore
import CxxLab.Kv.StoresAgree
import CxxLab.Bluestore.DeferredWriter
import CxxLab.Blk.BitmapRuns
import CxxLab.Blk.BitmapClaims
import CxxLab.Bluestore.BlobLayout
import CxxLab.Bluestore.BlobRelease
import CxxLab.Bluestore.UseTracker
import CxxLab.Bluestore.BlobCsum
import CxxLab.Bluestore.BlobSplit
import CxxLab.Bluestore.UseTrackerRuns
import CxxLab.Bluestore.DeferredIomap
import CxxLab.Bluefs.FnodeIndex
import CxxLab.Bluefs.FnodeUpdates
import CxxLab.Bluefs.LogCompaction
import CxxLab.Common.ObjectKeyReads
import CxxLab.Btier.JournalCodec
import CxxLab.Btier.JournalVerdict
import CxxLab.Common.DencBounds
import CxxLab.Kv.MemDbAtomic
import CxxLab.Kv.PrefixIterator
import CxxLab.Kv.PrefixSeeks
import CxxLab.Lib.Rounding
import CxxLab.Bluefs.VolumeSelector
import CxxLab.Lib.Readers
import CxxLab.Btier.JournalDamage
import CxxLab.Btier.ExtentAllocation
import CxxLab.Lib.ReverseIndex
import CxxLab.Btier.KeyMap
import CxxLab.Common.BufferCrc
import CxxLab.Common.IntervalSet
import CxxLab.Common.Armor
import CxxLab.Common.Throttle
import CxxLab.Btier.FreeLists
import CxxLab.Bluestore.BufferCache
import CxxLab.Bluestore.BufferCacheRuns
import CxxLab.Blk.KernelDevice
import CxxLab.Blk.AioRuns
import CxxLab.Blk.AioPromises
import CxxLab.Blk.AvlSpills
import CxxLab.Blk.HybridAllocator
import CxxLab.Blk.HybridRuns
