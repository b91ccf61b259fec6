import MemoryLeak.CBytes
import MemoryLeak.Runs
import MemoryLeak.BucketMap
import MemoryLeak.Notify.Message
import MemoryLeak.Notify.Table
import MemoryLeak.Heap
import MemoryLeak.Notify.Registration
import MemoryLeak.Notify.ForwardQueue
import MemoryLeak.Notify.Cipher
import MemoryLeak.Notify.Drain
import MemoryLeak.Notify.Routing
import MemoryLeak.Notify.Dump
import MemoryLeak.Notify.Server
import MemoryLeak.Notify.Secrecy
import MemoryLeak.Notify.Peers
import MemoryLeak.Notify.KeyAgreement
import MemoryLeak.Notify.Delivery
import MemoryLeak.Streams
import MemoryLeak.Shared.ShmRegion
import MemoryLeak.Notify.GenList
import MemoryLeak.Notify.TwoRuns
import MemoryLeak.Loops
import MemoryLeak.Sorting
import MemoryLeak.CText
import MemoryLeak.GroupBy
import MemoryLeak.Cluster.QuickSort
import MemoryLeak.Cluster.MergeCounting
import MemoryLeak.Cluster.Collect
import MemoryLeak.Cluster.DayCollect
import MemoryLeak.Cluster.Windows
import MemoryLeak.SlotIndex
import MemoryLeak.Cluster.ShmIndex
import MemoryLeak.Shared.WakeUp
import MemoryLeak.Footprint
import MemoryLeak.Cluster.ThreeSorts
import MemoryLeak.ThreadPool
import MemoryLeak.Cluster.Workers
import MemoryLeak.Cbc
import MemoryLeak.Cluster.FileTransfer
import MemoryLeak.TextFile
import MemoryLeak.Cluster.ExportImport
import MemoryLeak.Cluster.AnalysisConfig
import MemoryLeak.Layout
import MemoryLeak.KeyedText
import MemoryLeak.ForkJoin
import MemoryLeak.Notify.Traffic
import MemoryLeak.Notify.TrafficLedger
import MemoryLeak.Notify.SendingThread
import MemoryLeak.Notify.Decoding
import MemoryLeak.Notify.AesFrame
import MemoryLeak.Notify.Helpers
import MemoryLeak.Notify.RegList
import MemoryLeak.Notify.GenCapacity
import MemoryLeak.MergeByKey
import MemoryLeak.Notify.TakeAggregate
import MemoryLeak.SlotArray
import MemoryLeak.Cluster.Listing
import MemoryLeak.SlotTable
import MemoryLeak.Cluster.TokenRows
import MemoryLeak.Cluster.CommandOutput
import MemoryLeak.Cluster.Configs
import MemoryLeak.Cluster.ShmTable
import MemoryLeak.Cluster.FrameRecv
import MemoryLeak.Cluster.Requests
import MemoryLeak.Calendar
import MemoryLeak.DateText
import MemoryLeak.Cluster.DateDirs
import MemoryLeak.Cluster.WindowTexts
import MemoryLeak.Cluster.ManagerDays
import MemoryLeak.Cluster.Inserts
import MemoryLeak.Cluster.DayTotals
import MemoryLeak.Cluster.NotConnect
import MemoryLeak.Cluster.SortWorklist
import MemoryLeak.Standalone.Partition
import MemoryLeak.Standalone.QuickSort
import MemoryLeak.Standalone.Queue
import MemoryLeak.Lossy
import MemoryLeak.Standalone.LongSorts
import MemoryLeak.Images.Image
import MemoryLeak.Images.Equalization
import MemoryLeak.Images.Contrast
import MemoryLeak.Notify.Codecs
import MemoryLeak.Notify.HashWords
import MemoryLeak.Log.Levels
import MemoryLeak.Log.LevelSpec
import MemoryLeak.Log.LogFile
import MemoryLeak.Log.LogFormat
import MemoryLeak.Log.RateLimit
import MemoryLeak.Log.Valist
import MemoryLeak.Notify.Exchange
import MemoryLeak.Notify.Hops
import MemoryLeak.Notify.ExchangeRuns
import MemoryLeak.Notify.ExchangeSafety
import MemoryLeak.Notify.RoundTrip
import MemoryLeak.Cluster.ReportPrograms
import MemoryLeak.Cluster.DayTree
import MemoryLeak.Channels
import MemoryLeak.Cluster.Session
