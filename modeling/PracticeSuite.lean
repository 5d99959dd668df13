import PracticeSuite.Trace
import PracticeSuite.KeyedList
import PracticeSuite.TurnLoop
import PracticeSuite.SegmentedLog
import PracticeSuite.LinkedHeap
import PracticeSuite.ListScheduling
import PracticeSuite.StructLayout
import PracticeSuite.Scanf
import PracticeSuite.Strtoul
import PracticeSuite.ScanfPattern
import PracticeSuite.PacketBytes
import PracticeSuite.SnifferQueue
import PracticeSuite.SnifferTimeout
import PracticeSuite.Sniffer
import PracticeSuite.SnifferHistory
import PracticeSuite.SnifferFlags
import PracticeSuite.Elimination
import PracticeSuite.Sudoku
import PracticeSuite.SudokuSound
import PracticeSuite.SudokuRun
import PracticeSuite.SudokuCounts
import PracticeSuite.SudokuPasses
import PracticeSuite.FlowTable
import PracticeSuite.FlowKeys
import PracticeSuite.FlowPayload
import PracticeSuite.CapturedBytes
import PracticeSuite.CInt
import PracticeSuite.AgentScan
import PracticeSuite.AgentFolder
import PracticeSuite.AgentVersion
import PracticeSuite.AgentLog
import PracticeSuite.AgentMaster
import PracticeSuite.AgentSupervision
import PracticeSuite.AgentTables
import PracticeSuite.BalanceLoad
import PracticeSuite.BalancePlacement
import PracticeSuite.BalanceFleet
import PracticeSuite.ChainedTable
import PracticeSuite.PrgCache
import PracticeSuite.SocketListing
import PracticeSuite.SocketAddress
import PracticeSuite.SocketLink
import PracticeSuite.PrgLoad
import PracticeSuite.SelectServer
import PracticeSuite.FileTransfer
import PracticeSuite.VersionUpdate
import PracticeSuite.AgentRace
import PracticeSuite.AgentStarts
import PracticeSuite.AgentPass
import PracticeSuite.ProcStat
import PracticeSuite.ProcTicks
import PracticeSuite.ProcNet
import PracticeSuite.MyGLWidget
import PracticeSuite.ShadowFiles
import PracticeSuite.ShadowReaders
import PracticeSuite.ShadowRuns
import PracticeSuite.ProcDbase
import PracticeSuite.ProcTable
import PracticeSuite.ProcResidue
import PracticeSuite.TaskDeviation
import PracticeSuite.TaskRounds
import PracticeSuite.TaskDatabase
import PracticeSuite.TaskRuns
import PracticeSuite.RawLog
import PracticeSuite.RawReader
