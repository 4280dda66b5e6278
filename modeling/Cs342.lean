import Cs342.Library.Loop
import Cs342.Library.System
import Cs342.Library.Access
import Cs342.Library.Progress
import Cs342.Library.Reduction
import Cs342.Library.Chain
import Cs342.Library.Ledger
import Cs342.Library.Bytes
import Cs342.Library.Lines
import Cs342.Library.Words
import Cs342.Library.Marks
import Cs342.Library.ExchangeSort
import Cs342.Library.ChainSort
import Cs342.Library.ChainFree
import Cs342.Library.Ranking
import Cs342.Library.Overrides
import Cs342.Library.Scan
import Cs342.Library.Scanf
import Cs342.Library.Strtoul
import Cs342.Library.Delimited
import Cs342.ResourceManager.Manager
import Cs342.ResourceManager.Safety
import Cs342.ResourceManager.Session
import Cs342.ResourceManager.Conservation
import Cs342.ResourceManager.Avoidance
import Cs342.ResourceManager.PrintState
import Cs342.ResourceManager.Detection
import Cs342.ResourceManager.Lifetime
import Cs342.ResourceManager.Registration
import Cs342.ResourceManager.Ints
import Cs342.ResourceManager.Arguments
import Cs342.ResourceManager.Application
import Cs342.ResourceManager.Account
import Cs342.Scheduler.ReadyQueue
import Cs342.Scheduler.Cpu
import Cs342.Scheduler.Conservation
import Cs342.Scheduler.Completion
import Cs342.Scheduler.RoundRobin
import Cs342.Scheduler.Fifo
import Cs342.Scheduler.ShortestJob
import Cs342.Scheduler.Slices
import Cs342.Scheduler.FirstCome
import Cs342.Scheduler.LeastLoad
import Cs342.Scheduler.Waiting
import Cs342.Scheduler.Throughput
import Cs342.Scheduler.Report
import Cs342.Scheduler.SetUp
import Cs342.Scheduler.Mutex
import Cs342.Scheduler.Exclusion
import Cs342.Scheduler.CondVar
import Cs342.Scheduler.Wakeup
import Cs342.Scheduler.QueueAccess
import Cs342.Scheduler.Overlap
import Cs342.TopK.WordList
import Cs342.TopK.Pointers
import Cs342.TopK.SharedMemory
import Cs342.TopK.ThreadTopK
import Cs342.TopK.ProcTopK
import Cs342.TopK.Guarantee
import Cs342.TopK.Output
import Cs342.TopK.RoundTrip
import Cs342.Scheduler.Producer
import Cs342.Scheduler.Sources
import Cs342.Scheduler.InputFile
import Cs342.Scheduler.Table
import Cs342.Scheduler.TableText
import Cs342.Scheduler.Placement
import Cs342.Scheduler.CleanUp
import Cs342.Scheduler.Options
import Cs342.MemUtils.Pagemap
import Cs342.MemUtils.MapRange
import Cs342.MemUtils.TableSize
import Cs342.MemUtils.MemUsed
import Cs342.MemUtils.Counted
import Cs342.MemUtils.MapsText
import Cs342.MemUtils.FreeFrames
import Cs342.MemUtils.FrameInfo
import Cs342.MemUtils.Pvm
import Cs342.MemUtils.LongLines
import Cs342.ResourceManager.Completion
