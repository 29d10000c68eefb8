import Tyndall.Foundation.Runs
import Tyndall.Foundation.Simulation
import Tyndall.Foundation.Windows
import Tyndall.Foundation.Alignment
import Tyndall.Foundation.Block
import Tyndall.Foundation.Occurrences
import Tyndall.Foundation.CString
import Tyndall.Foundation.Parts
import Tyndall.Foundation.Separated
import Tyndall.Foundation.Escapes
import Tyndall.Foundation.Moves
import Tyndall.Foundation.Search
import Tyndall.Foundation.LongestRuns
import Tyndall.Foundation.Holdings
import Tyndall.Foundation.Pages
import Tyndall.Foundation.PrefixCode
import Tyndall.Ipc.SeqLockSteps
import Tyndall.Ipc.SeqLockHistory
import Tyndall.Ipc.SeqLockAlone
import Tyndall.Ipc.Snapshot
import Tyndall.Ipc.Crash
import Tyndall.Ipc.Delivery
import Tyndall.Ipc.Linearization
import Tyndall.Ipc.Progress
import Tyndall.Ipc.Wraparound
import Tyndall.Ipc.Barriers
import Tyndall.Ipc.BarrierSnapshots
import Tyndall.Ipc.BarrierReads
import Tyndall.Ipc.BarrierNeed
import Tyndall.Ipc.BarrierOrder
import Tyndall.Ipc.God
import Tyndall.Ipc.GodExit
import Tyndall.Ipc.GodLosses
import Tyndall.Ipc.GodRespawns
import Tyndall.Ipc.Id
import Tyndall.Ipc.Layout
import Tyndall.Ipc.Shmem
import Tyndall.Ipc.TypeCheck
import Tyndall.Ipc.Machine
import Tyndall.Ipc.MachineInvariant
import Tyndall.Ipc.MachineTopics
import Tyndall.Ipc.Cleanup
import Tyndall.Ipc.Rejected
import Tyndall.Ipc.Lazy
import Tyndall.Ipc.Topics
import Tyndall.Ipc.Registry
import Tyndall.Ipc.RegistryBuffers
import Tyndall.Ipc.MappedPages
import Tyndall.Ipc.History
import Tyndall.Ipc.EndToEnd
import Tyndall.Ipc.RuntimeIds
import Tyndall.Ipc.SharedNames
import Tyndall.Reflect.PrintFormat
import Tyndall.Reflect.Reflection
import Tyndall.Reflect.NFields
import Tyndall.Reflect.PrintText
import Tyndall.Tools.Print
import Tyndall.Tools.FormatLanguage
import Tyndall.Tools.IpcRead
import Tyndall.Tools.IpcReadLoop
import Tyndall.Tools.Output
import Tyndall.Log.Level
import Tyndall.Log.Glob
import Tyndall.Log.LogLevel
import Tyndall.Log.Entries
import Tyndall.Log.Inert
import Tyndall.Log.Statements
import Tyndall.Log.LogString
