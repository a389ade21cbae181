import SysProg.Lib.Fallible
import SysProg.Lib.Transition
import SysProg.Lib.Monitor
import SysProg.Lib.Locking
import SysProg.Lib.Footprints
import SysProg.Lib.Heap
import SysProg.Lib.Fifo
import SysProg.Lib.CString
import SysProg.Lib.Scan
import SysProg.Lib.Decimal
import SysProg.Lib.Lines
import SysProg.Lib.Fgets
import SysProg.Lib.Files
import SysProg.Lib.Credentials
import SysProg.Lib.Wire
import SysProg.Lib.Interaction
import SysProg.Lib.Annuity
import SysProg.M2.FutureValue
import SysProg.M4.Input
import SysProg.M2.Arguments
import SysProg.M5.SystemInfo
import SysProg.M5.Usage
import SysProg.M6.SetuidDemo
import SysProg.M8.Signals
import SysProg.M8.Reports
import SysProg.M9.Queue
import SysProg.M9.QueueFifo
import SysProg.M9.QueueHeap
import SysProg.M9.QueueLinks
import SysProg.M9.QueueMonitor
import SysProg.M9.RequestServer
import SysProg.M9.ServerRuns
import SysProg.M9.ThreadPool
import SysProg.M9.Tasks
import SysProg.M9.TaskLog
import SysProg.M9.Orderly
import SysProg.M9.Work
import SysProg.M9.Termination
import SysProg.Testing.Session
import SysProg.Book.FileCopy
import SysProg.Book.MtCopy
import SysProg.Book.CriticalSection
import SysProg.Book.CondVar
import SysProg.Book.MatrixMul
import SysProg.Book.SimpleShell
import SysProg.Book.SharedOffset
import SysProg.Book.IoBuffer
import SysProg.Book.Primes
import SysProg.Proxy.HttpRequest
import SysProg.Proxy.RequestBounds
import SysProg.Proxy.Handler
import SysProg.Proxy.Rewriting
import SysProg.Proxy.Url
import SysProg.Proxy.TargetPort
import SysProg.Proxy.PriorContents
import SysProg.Proxy.Network
import SysProg.Proxy.Connecting
import SysProg.Proxy.Relay
import SysProg.Proxy.Ledger
import SysProg.Proxy.Release
import SysProg.Proxy.Server
import SysProg.Proxy.Ownership
import SysProg.Proxy.Isolation
import SysProg.Proxy.Survival
import SysProg.Proxy.Draining
import SysProg.Proxy.Intake
import SysProg.Target.WebServer
import SysProg.Target.Requests
import SysProg.Proxy.EndToEnd
